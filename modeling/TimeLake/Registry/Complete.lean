import TimeLake.Registry.Files
import TimeLake.Query.Restriction

/-!
Completeness of the registry: the schema a table is queried under has every
column of every file the catalog lists for it. A file of this node is there
because `flush_one` registers its columns before it puts it, and a merged file
has no columns but those of its inputs. Everything else reaches the registry
through the footer of one file, the one with the greatest path of its table, so
`columnsKept` asks that this footer has the columns of the files folded in with
it.
-/

namespace TimeLake.Registry

open TimeLake.Library TimeLake.Catalog TimeLake.Rows TimeLake.Ingest TimeLake.Wal
open TimeLake.Store TimeLake.Cluster TimeLake.Query

section Condition

/-- The columns of a footer are registered for its table. -/
def Covers (s : State) (key : TableKey) (footer : Schema) : Prop :=
  ∀ c ∈ footer, c.1 ∈ s.columns key

namespace State

/-- Every column in a file's footer is registered for the file's table. -/
def Registered (s : State) (f : FileMeta) : Prop :=
  Has (Covers s) s.footers f

def newest (s : State) (key : TableKey) : Option String :=
  (newestFiles (listed s.log)).lookup key

/-- The columns in the footer of the newest file of a table. -/
def newestColumns (s : State) (key : TableKey) : List String :=
  (((s.newest key).bind s.footers.lookup).getD []).map Prod.fst

instance (s : State) (f : FileMeta) : Decidable (s.Registered f) :=
  inferInstanceAs (Decidable (∀ schema ∈ s.footers.lookup f.path, ∀ c ∈ schema, _))

end State

/-- An open finds, in the footer of the newest file of each table, the columns
of all files of the table; a catch-up finds there what is not registered of the
files it folds in, unless that footer has been read before; a commit folds in
registered files only, and no put replaces a file of another table. -/
def columnsKept (s : State) : Action → Prop
  | .flushOne k size _ =>
      ∀ fl ∈ s.flights.lookup k, ∀ p ∈ fl.todo.head?, ∀ f ∈ s.outputs p.1 p.2 size,
        s.OwnPath p.1 f.path
  | .commit _ result => result.folds = true → ∀ f ∈ s.incoming, s.Registered f
  | .compact group maxTs size result =>
      (∀ f0 ∈ (s.inputs group).head?,
        s.OwnPath f0.key (outputMeta .compacted f0.key f0.partition [] maxTs s.fileSeq size).path) ∧
      (result.folds = true → ∀ f ∈ s.incoming, s.Registered f)
  | .foreign _ footers => ∀ p ∈ footers, ∀ f ∈ s.held, f.path ≠ p.1
  | .catchUp =>
      ∀ f ∈ s.incoming, ∀ schema ∈ s.footers.lookup f.path, ∀ c ∈ schema,
        c.1 ∈ s.columns f.key ∨
          s.source.lookup f.key ≠ s.newest f.key ∧ c.1 ∈ s.newestColumns f.key
  | .openEngine =>
      ∀ f ∈ listed s.log, ∀ schema ∈ s.footers.lookup f.path, ∀ c ∈ schema,
        c.1 ∈ s.newestColumns f.key
  | _ => True

instance (s : State) : (a : Action) → Decidable (columnsKept s a)
  | .flushOne k size _ => inferInstanceAs (Decidable
      (∀ fl ∈ s.flights.lookup k, ∀ p ∈ fl.todo.head?, ∀ f ∈ s.outputs p.1 p.2 size, _))
  | .commit _ result => inferInstanceAs (Decidable (result.folds = true → ∀ f ∈ s.incoming, _))
  | .compact group _ _ _ => inferInstanceAs (Decidable ((∀ f0 ∈ (s.inputs group).head?, _) ∧
      (_ → ∀ f ∈ s.incoming, _)))
  | .foreign _ footers => inferInstanceAs (Decidable (∀ p ∈ footers, ∀ f ∈ s.held, _))
  | .catchUp => inferInstanceAs (Decidable
      (∀ f ∈ s.incoming, ∀ schema ∈ s.footers.lookup f.path, ∀ c ∈ schema, _))
  | .openEngine => inferInstanceAs (Decidable
      (∀ f ∈ listed s.log, ∀ schema ∈ s.footers.lookup f.path, ∀ c ∈ schema, _))
  | .append _ | .apply _ _ | .handover _ _ | .reclaim _ | .replay | .serve =>
      inferInstanceAs (Decidable True)

end Condition

section Widening

/-- The names the registry of a node has for a table. -/
def names (n : Ingest.Node) (key : TableKey) : List String :=
  ((n.schemas.lookup key).getD []).map Prod.fst

theorem names_insert {n m : Ingest.Node} {key : TableKey} {merged : Schema}
    (hm : m.schemas = n.schemas.insert key merged)
    (h : ∀ name ∈ names n key, name ∈ merged.map Prod.fst) (j : TableKey) :
    names n j ⊆ names m j := by
  intro name hname
  unfold names
  by_cases hj : j = key
  · subst hj
    rw [hm, AList.lookup_insert]
    exact h name hname
  · rw [hm, AList.lookup_insert_ne hj]
    exact hname

theorem appendLines_schemas (fl : FloatOps) (db : String) (est : String → Established)
    (lines : List ParsedLine) (n : Ingest.Node) :
    (n.appendLines fl db est lines).1.schemas = n.schemas := by
  induction lines generalizing n with
  | nil => rfl
  | cons line rest ih =>
      simp only [Ingest.Node.appendLines]
      split
      · rfl
      · rw [ih]

theorem observeAll_schemas (n : Ingest.Node) (db : String) (lines : List ParsedLine) :
    (n.observeAll db lines).schemas = n.schemas := by
  unfold Ingest.Node.observeAll
  split <;> rfl

theorem names_noteColumns (n : Ingest.Node) (key j : TableKey) :
    names n j ⊆ names (n.noteColumns key).1 j := by
  unfold Ingest.Node.noteColumns
  simp only
  split
  · cases hunion : schemaUnion (n.schemas.lookup key) (n.buffer key).1.schemaOnly with
    | error e => exact fun _ h => h
    | ok merged => exact names_insert rfl (schemaUnion_spec hunion).2.1 j
  · exact fun _ h => h

theorem names_noteAll (keys : List TableKey) (n : Ingest.Node) (j : TableKey) :
    names n j ⊆ names (n.noteAll keys).1 j := by
  induction keys generalizing n with
  | nil => exact fun _ h => h
  | cons key rest ih =>
      have hfirst := names_noteColumns n key j
      simp only [Ingest.Node.noteAll]
      split
      · next heq =>
          rw [heq] at hfirst
          exact hfirst
      · next heq =>
          rw [heq] at hfirst
          exact fun _ h => ih _ (hfirst h)

/-- `apply` takes no column from the registry. -/
theorem names_apply (fl : FloatOps) (n : Ingest.Node) (db text : String) (mult : Int64) (ts : Int)
    (j : TableKey) : names n j ⊆ names (n.apply fl db text mult ts).1 j := by
  unfold Ingest.Node.apply
  split
  · exact fun _ h => h
  · next lines _ =>
      have hschemas := appendLines_schemas fl db (fun table => n.established (db, table)) lines n
      unfold Ingest.Node.applyLines
      split
      · next m _ heq =>
          replace hschemas : m.schemas = n.schemas := by rw [← hschemas, heq]
          simp only [names, hschemas]
          exact fun _ h => h
      · next m heq =>
          replace hschemas : m.schemas = n.schemas := by rw [← hschemas, heq]
          have hnote := names_noteAll (Ingest.Node.touched db lines) (m.observeAll db lines) j
          have hsame : names (m.observeAll db lines) j = names n j := by
            simp only [names, observeAll_schemas, hschemas]
          rw [hsame] at hnote
          split
          · next hnoted =>
              rw [hnoted] at hnote
              exact hnote
          · next hnoted =>
              rw [hnoted] at hnote
              exact hnote

/-- A step that reads and changes nothing but the registry: it loses no column,
and a conflict once found stays found. -/
structure Widens (s t : State) : Prop where
  columns : ∀ key, s.columns key ⊆ t.columns key
  conflict : s.conflict = true → t.conflict = true
  log : t.log = s.log
  head : t.head = s.head
  footers : t.footers = s.footers
  flights : t.flights = s.flights

theorem Widens.refl (s : State) : Widens s s :=
  ⟨fun _ _ h => h, id, rfl, rfl, rfl, rfl⟩

theorem Widens.trans {s t u : State} (h : Widens s t) (h' : Widens t u) : Widens s u where
  columns := fun key _ hc => h'.columns key (h.columns key hc)
  conflict := fun hc => h'.conflict (h.conflict hc)
  log := h'.log.trans h.log
  head := h'.head.trans h.head
  footers := h'.footers.trans h.footers
  flights := h'.flights.trans h.flights

theorem Widens.held {s t : State} (h : Widens s t) : t.held = s.held := by
  simp only [State.held, State.files, h.log, h.head, h.flights]

theorem Widens.registered {s t : State} (h : Widens s t) {f : FileMeta} (hf : s.Registered f) :
    t.Registered f := by
  intro schema hschema c hc
  rw [h.footers] at hschema
  exact h.columns _ (hf schema hschema c hc)

theorem applied_widens (s : State) (fl : FloatOps) (db text : String) (mult : Int64) (ts : Int) :
    Widens s (s.applied (s.node.apply fl db text mult ts)) where
  columns := names_apply fl s.node db text mult ts
  conflict := fun h => by simp [State.applied, h]
  log := rfl
  head := rfl
  footers := rfl
  flights := rfl

theorem refreshTable_widens (s : State) (key : TableKey) (path : String) :
    Widens s (s.refreshTable key path) := by
  unfold State.refreshTable
  split
  · exact Widens.refl s
  · split
    · exact Widens.refl s
    · split
      · next hunion =>
          exact ⟨names_insert rfl (schemaUnion_spec hunion).2.1, id, rfl, rfl, rfl, rfl⟩
      · exact ⟨fun _ _ h => h, fun _ => rfl, rfl, rfl, rfl, rfl⟩

theorem refreshTables_widens (entries : List (Sigma fun _ : TableKey => String)) (s : State) :
    Widens s (entries.foldl (fun s e => s.refreshTable e.1 e.2) s) := by
  induction entries generalizing s with
  | nil => exact Widens.refl s
  | cons e rest ih => exact (refreshTable_widens s e.1 e.2).trans (ih _)

theorem refresh_widens (s : State) : Widens s s.refresh := refreshTables_widens _ s

/-- The footer a refresh has not read before is registered behind it. -/
theorem refreshTable_reads {s : State} {key : TableKey} {path : String} {schema : Schema}
    (hsource : s.source.lookup key ≠ some path) (hfooter : s.footers.lookup path = some schema)
    (hok : (s.refreshTable key path).conflict = false) {c : String × DataType} (hc : c ∈ schema) :
    c.1 ∈ (s.refreshTable key path).columns key := by
  unfold State.refreshTable at hok ⊢
  rw [if_neg hsource] at hok ⊢
  rw [hfooter] at hok ⊢
  simp only at hok ⊢
  split at hok
  · next merged hunion =>
      simp only [State.columns, State.registered, AList.lookup_insert, Option.getD_some]
      exact (schemaUnion_spec hunion).2.2 c hc
  · cases hok

theorem refreshTable_source {s : State} {key j : TableKey} (path : String) (h : j ≠ key) :
    (s.refreshTable key path).source.lookup j = s.source.lookup j := by
  unfold State.refreshTable
  split
  · rfl
  · split
    · rfl
    · split
      · exact AList.lookup_insert_ne h
      · rfl

theorem refreshTables_read {entries : List (Sigma fun _ : TableKey => String)}
    (hnodup : entries.NodupKeys) {s : State}
    (hok : (entries.foldl (fun s e => s.refreshTable e.1 e.2) s).conflict = false)
    {key : TableKey} {path : String} (hmem : ⟨key, path⟩ ∈ entries)
    (hsource : s.source.lookup key ≠ some path) {schema : Schema}
    (hfooter : s.footers.lookup path = some schema) {c : String × DataType} (hc : c ∈ schema) :
    c.1 ∈ (entries.foldl (fun s e => s.refreshTable e.1 e.2) s).columns key := by
  induction entries generalizing s with
  | nil => cases hmem
  | cons e rest ih =>
      obtain ⟨j, p⟩ := e
      rw [List.nodupKeys_cons] at hnodup
      have hrest := refreshTables_widens rest (s.refreshTable j p)
      rcases List.mem_cons.mp hmem with heq | hlater
      · cases heq
        have hfirst : (s.refreshTable key path).conflict = false := by
          by_contra hne
          have := hrest.conflict (by simpa using hne)
          rw [List.foldl_cons, this] at hok
          cases hok
        exact hrest.columns key (refreshTable_reads hsource hfooter hfirst hc)
      · have hne : key ≠ j := by
          rintro rfl
          exact hnodup.1 (List.mem_map.mpr ⟨⟨key, path⟩, hlater, rfl⟩)
        refine ih hnodup.2 hok hlater ?_ ?_
        · rw [refreshTable_source p hne]
          exact hsource
        · rw [(refreshTable_widens s j p).footers]
          exact hfooter

/-- What a refresh finds in the footer of the newest file of a table. -/
theorem refresh_reads {s : State} (hhead : s.head = s.log.length)
    (hok : s.refresh.conflict = false) {key : TableKey}
    (hsource : s.source.lookup key ≠ s.newest key) {name : String}
    (hname : name ∈ s.newestColumns key) : name ∈ s.refresh.columns key := by
  have hfiles : s.files = listed s.log := by rw [State.files, hhead, List.take_length]
  unfold State.newestColumns at hname
  cases hnewest : s.newest key with
  | none =>
      rw [hnewest] at hname
      cases hname
  | some path =>
      rw [hnewest] at hname hsource
      cases hfooter : s.footers.lookup path with
      | none =>
          rw [Option.bind_some, hfooter] at hname
          cases hname
      | some schema =>
          rw [Option.bind_some, hfooter, Option.getD_some] at hname
          obtain ⟨c, hc, rfl⟩ := List.mem_map.mp hname
          have hmem : ⟨key, path⟩ ∈ (newestFiles s.files).entries := by
            rw [hfiles]
            exact AList.mem_lookup_iff.mp hnewest
          exact refreshTables_read (newestFiles s.files).nodupKeys hok hmem hsource hfooter hc

end Widening

section Completeness

variable {fl : FloatOps} {s t : State}

/-- As long as no union has conflicted, the columns of all files are there. -/
def Inv (s : State) : Prop := s.conflict = false → AllHave (Covers s) s

theorem Covers.mono (hcolumns : ∀ key, s.columns key ⊆ t.columns key) (key : TableKey)
    (footer : Schema) (h : Covers s key footer) : Covers t key footer :=
  fun c hc => hcolumns key (h c hc)

/-- A step that leaves the catalog, the footers and the flights alone and takes
nothing from the registry. -/
theorem Inv.widens (h : Inv s) (hw : Widens s t) : Inv t := by
  intro hok
  have hbefore : s.conflict = false := by
    by_contra hne
    rw [hw.conflict (by simpa using hne)] at hok
    cases hok
  exact ((h hbefore).mono (Covers.mono hw.columns)).beside hw.log hw.head hw.footers hw.flights

theorem Inv.flushOne (h : Inv s) (hok : s.conflict = false) {k : Nat} {size : Nat → Nat}
    {puts : Option Nat} (hown : columnsKept s (.flushOne k size puts))
    (hstep : Registry.flushOne s k size puts = some t) : Inv t := by
  intro hafter
  have hregisters : (∀ key, s.columns key ⊆ t.columns key) ∧
      ∀ flight ∈ s.flights.lookup k, ∀ p ∈ flight.todo.head?, Covers t p.1 p.2.schemaOnly := by
    unfold Registry.flushOne at hstep
    split at hstep
    · next key b todo metas hflight =>
        split at hstep
        · obtain rfl := Option.some.inj hstep
          cases hafter
        · next merged hunion =>
            obtain rfl := Option.some.inj hstep
            have hspec := schemaUnion_spec hunion
            refine ⟨names_insert rfl hspec.2.1, ?_⟩
            intro flight hflight' p hp c hc
            rw [hflight] at hflight'
            obtain rfl := Option.some.inj hflight'
            obtain rfl := Option.some.inj hp
            simp only [State.columns, State.registered, AList.lookup_insert, Option.getD_some]
            exact hspec.2.2 c hc
    · cases hstep
  exact ((h hok).mono (Covers.mono hregisters.1)).flushOne hown hregisters.2 hstep

theorem Inv.compact (h : Inv s) (hok : s.conflict = false) {group : GroupKey} {maxTs : Int}
    {size : Nat} {result : CommitEnd} (hkept : columnsKept s (.compact group maxTs size result))
    (hstep : Registry.compact s group maxTs size result = some t) : Inv t := by
  have hall : AllHave (Covers s) t := by
    refine (h hok).compact hkept.2 hkept.1 ?_ hstep
    intro key schemas merged hschemas halign c hc
    obtain ⟨schema, hmem, hc⟩ := mem_alignSchema halign hc
    exact hschemas schema hmem c hc
  refine fun _ => hall.mono (Covers.mono fun key => ?_)
  have hnode : t.node = s.node := compact_node hstep
  simp only [State.columns, State.registered, hnode]
  exact fun _ hc => hc

theorem Inv.commit (h : Inv s) (hok : s.conflict = false) {k : Nat} {result : CommitEnd}
    (hin : columnsKept s (.commit k result)) (hstep : Registry.commit s k result = some t) :
    Inv t := by
  refine fun _ => ((h hok).commit hin hstep).mono (Covers.mono fun key => ?_)
  have hnode : t.node = s.node := commit_node hstep
  simp only [State.columns, State.registered, hnode]
  exact fun _ hc => hc

theorem Inv.foreign (h : Inv s) {e : ManifestEntry} {footers : List (String × Schema)}
    (hapart : columnsKept s (.foreign e footers)) (hhead : s.head ≤ s.log.length) :
    Inv (Registry.foreign s e footers) := by
  intro hok f hf
  have hheld : f ∈ s.held := by
    refine mem_held.mpr ((mem_held.mp hf).imp_left fun hf => ?_)
    rw [State.files, Registry.foreign, List.take_append_of_le_length hhead] at hf
    exact hf
  intro found hfound
  have hpath : f.path ∉ footers.map Prod.fst := by
    intro hmem
    obtain ⟨p, hp, heq⟩ := List.mem_map.mp hmem
    exact hapart p hp f hheld heq.symm
  refine h hok f hheld found ?_
  rw [← AssocMap.lookup_foldl_insert_of_notMem Prod.fst Prod.snd footers s.footers hpath]
  exact hfound

/-- Behind a refresh at the end of the log, every listed file whose columns were
registered, or are in the newest footer of its table. -/
theorem Inv.refresh (hhead : s.head = s.log.length) (hflights : ∀ k flight,
      s.flights.lookup k = some flight → ∀ f ∈ flight.metas, s.Registered f)
    (hfiles : ∀ f ∈ listed s.log, ∀ schema ∈ s.footers.lookup f.path, ∀ c ∈ schema,
      c.1 ∈ s.columns f.key ∨
        s.source.lookup f.key ≠ s.newest f.key ∧ c.1 ∈ s.newestColumns f.key) :
    Inv s.refresh := by
  have hw := refresh_widens s
  intro hok f hf
  rw [hw.held] at hf
  rcases mem_held.mp hf with hf | ⟨k, flight, hk, hmeta⟩
  · rw [State.files, hhead, List.take_length] at hf
    intro found hfound c hc
    rw [hw.footers] at hfound
    rcases hfiles f hf found hfound c hc with hold | ⟨hsource, hnew⟩
    · exact hw.columns _ hold
    · exact refresh_reads hhead hok hsource hnew
  · exact hw.registered (hflights k flight hk f hmeta)

theorem Inv.catchUp (h : Inv s) (hok : s.conflict = false) (hkept : columnsKept s .catchUp)
    (hstep : Registry.catchUp s = some t) : Inv t := by
  unfold Registry.catchUp at hstep
  split at hstep
  · split at hstep
    · obtain rfl := Option.some.inj hstep
      exact h
    · obtain rfl := Option.some.inj hstep
      refine Inv.refresh rfl ?_ ?_
      · exact fun k flight hk f hmeta => h hok f (mem_held.mpr (.inr ⟨k, flight, hk, hmeta⟩))
      · intro f hf schema hschema c hc
        by_cases hold : f ∈ s.files
        · exact .inl (h hok f (mem_held.mpr (.inl hold)) schema hschema c hc)
        · exact hkept f (mem_incoming.mpr ⟨hf, hold⟩) schema hschema c hc
  · cases hstep

theorem Inv.openEngine (hkept : columnsKept s .openEngine) : Inv (Registry.openEngine s) := by
  refine Inv.refresh rfl ?_ ?_
  · intro k flight hk
    cases hk
  · intro f hf schema hschema c hc
    have hnew := hkept f hf schema hschema c hc
    refine .inr ⟨?_, hnew⟩
    intro hnone
    unfold State.newestColumns at hnew
    have hnewest : s.newest f.key = none := hnone.symm
    rw [hnewest] at hnew
    cases hnew

/-- A conflict that has been found stays found, and the head stays within the
log. -/
theorem step_keeps {a : Action} (hstep : step fl s a = some t) :
    (s.conflict = true → t.conflict = true) ∧
      (s.head ≤ s.log.length → t.head ≤ t.log.length) := by
  have hrefresh : ∀ u : State, (u.conflict = true → u.refresh.conflict = true) ∧
      (u.head ≤ u.log.length → u.refresh.head ≤ u.refresh.log.length) := fun u =>
    have hw := refresh_widens u
    ⟨hw.conflict, fun hle => by rw [hw.head, hw.log]; exact hle⟩
  have hfold : ∀ (u : State) folded, (u.fold folded).conflict = u.conflict ∧
      (u.head ≤ u.log.length → (u.fold folded).head ≤ (u.fold folded).log.length) := by
    intro u folded
    unfold State.fold
    split
    · exact ⟨rfl, fun _ => le_rfl⟩
    · exact ⟨rfl, id⟩
  cases a with
  | append c =>
      simp only [step, append] at hstep
      split at hstep
      · obtain rfl := Option.some.inj hstep
        exact ⟨id, id⟩
      · cases hstep
  | apply i nowNs =>
      simp only [step, apply] at hstep
      split at hstep
      · cases hstep
      · obtain rfl := Option.some.inj hstep
        exact ⟨fun h => by simp [State.applied, h], id⟩
  | handover k rotated =>
      simp only [step, handover] at hstep
      split at hstep
      · obtain rfl := Option.some.inj hstep
        exact ⟨id, id⟩
      · cases hstep
  | flushOne k size puts =>
      simp only [step, flushOne] at hstep
      split at hstep
      · split at hstep
        · obtain rfl := Option.some.inj hstep
          exact ⟨fun _ => rfl, id⟩
        · obtain rfl := Option.some.inj hstep
          exact ⟨id, id⟩
      · cases hstep
  | commit k result =>
      simp only [step, commit] at hstep
      split at hstep
      · cases result with
        | landed =>
            obtain rfl := Option.some.inj hstep
            exact ⟨id, fun _ => by simp⟩
        | failed folded =>
            obtain rfl := Option.some.inj hstep
            exact ⟨fun h => (hfold s folded).1.trans h, (hfold s folded).2⟩
      · cases hstep
  | reclaim frames =>
      obtain rfl := Option.some.inj hstep
      exact ⟨id, id⟩
  | compact group maxTs size result =>
      simp only [step, compact] at hstep
      split at hstep
      · split at hstep
        · obtain rfl := Option.some.inj hstep
          exact ⟨fun _ => rfl, id⟩
        · cases result with
          | failed folded =>
              obtain rfl := Option.some.inj hstep
              exact ⟨fun h => (hfold _ folded).1.trans h, fun h => (hfold _ folded).2 h⟩
          | landed =>
              simp only at hstep
              split at hstep
              · obtain rfl := Option.some.inj hstep
                exact ⟨id, fun _ => by simp⟩
              · obtain rfl := Option.some.inj hstep
                exact ⟨fun h => (hfold _ true).1.trans h, fun h => (hfold _ true).2 h⟩
      · cases hstep
  | foreign e footers =>
      obtain rfl := Option.some.inj hstep
      exact ⟨id, fun h => by simp only [foreign, List.length_append]; omega⟩
  | catchUp =>
      simp only [step, catchUp] at hstep
      split at hstep
      · split at hstep
        · obtain rfl := Option.some.inj hstep
          exact ⟨id, id⟩
        · obtain rfl := Option.some.inj hstep
          exact ⟨fun h => (hrefresh _).1 h, fun _ => (hrefresh _).2 le_rfl⟩
      · cases hstep
  | openEngine =>
      obtain rfl := Option.some.inj hstep
      exact ⟨fun h => (hrefresh _).1 h, fun _ => (hrefresh _).2 le_rfl⟩
  | replay =>
      simp only [step, replay] at hstep
      split at hstep
      · obtain rfl := Option.some.inj hstep
        exact ⟨fun h => by simp [State.applied, h], id⟩
      · cases hstep
  | serve =>
      simp only [step, serve] at hstep
      split at hstep
      · obtain rfl := Option.some.inj hstep
        exact ⟨(hrefresh s).1, (hrefresh s).2⟩
      · cases hstep

theorem Inv.step {a : Action} (h : Inv s) (hhead : s.head ≤ s.log.length)
    (hkept : columnsKept s a) (hstep : Registry.step fl s a = some t) : Inv t := by
  by_cases hok : s.conflict = false
  · cases a with
    | append c =>
        simp only [Registry.step, Registry.append] at hstep
        split at hstep
        · obtain rfl := Option.some.inj hstep
          exact h.widens ⟨fun _ _ hc => hc, id, rfl, rfl, rfl, rfl⟩
        · cases hstep
    | apply i nowNs =>
        simp only [Registry.step, Registry.apply] at hstep
        split at hstep
        · cases hstep
        · next w _ =>
            obtain rfl := Option.some.inj hstep
            have hw := applied_widens s fl w.db w.text w.mult nowNs
            exact h.widens ⟨hw.columns, hw.conflict, rfl, rfl, rfl, rfl⟩
    | handover k rotated =>
        refine fun _ => ((h hok).handover hstep).mono (Covers.mono fun key => ?_)
        simp only [Registry.step, Registry.handover] at hstep
        split at hstep
        · obtain rfl := Option.some.inj hstep
          exact fun _ hc => hc
        · cases hstep
    | flushOne k size puts => exact h.flushOne hok hkept hstep
    | commit k result => exact h.commit hok hkept hstep
    | reclaim frames =>
        obtain rfl := Option.some.inj hstep
        exact h.widens ⟨fun _ _ hc => hc, id, rfl, rfl, rfl, rfl⟩
    | compact group maxTs size result => exact h.compact hok hkept hstep
    | foreign e footers =>
        obtain rfl := Option.some.inj hstep
        exact h.foreign hkept hhead
    | catchUp => exact h.catchUp hok hkept hstep
    | openEngine =>
        obtain rfl := Option.some.inj hstep
        exact Inv.openEngine hkept
    | replay =>
        simp only [Registry.step, Registry.replay] at hstep
        split at hstep
        · next f todo _ =>
            obtain rfl := Option.some.inj hstep
            have hw := applied_widens s fl f.db (fromUtf8Lossy f.body) f.mult 0
            exact h.widens ⟨hw.columns, hw.conflict, rfl, rfl, rfl, rfl⟩
        · cases hstep
    | serve =>
        simp only [Registry.step, Registry.serve] at hstep
        split at hstep
        · obtain rfl := Option.some.inj hstep
          have hw := refresh_widens s
          exact h.widens ⟨hw.columns, hw.conflict, hw.log, hw.head, hw.footers, hw.flights⟩
        · cases hstep
  · intro hfalse
    rw [(step_keeps hstep).1 (by simpa using hok)] at hfalse
    cases hfalse

variable {declared : AssocMap TableKey TableSchema} {lastValue : LastValueCache}
  {log : List ManifestEntry} {footers : AssocMap String Schema} {frames : List Frame}

theorem inv_of_run {acts : List Action}
    (run : Run (step fl) columnsKept (start declared lastValue log footers frames) acts s) :
    Inv s := by
  have hboth : Inv s ∧ s.head ≤ s.log.length := by
    refine run.invariant (P := fun u => Inv u ∧ u.head ≤ u.log.length) ?_ ⟨?_, Nat.zero_le _⟩
    · rintro u a v ⟨hinv, hhead⟩ hkept hstep
      exact ⟨hinv.step hhead hkept hstep, (step_keeps hstep).2 hhead⟩
    · intro _ f hf
      cases hf
  exact hboth.1

/-- Column types do not conflict: no union has failed so far, and the one
`table_schema` makes of the registry and the buffer does not. -/
structure Agreeing (s : State) (key : TableKey) : Prop where
  before : s.conflict = false
  now : (schemaUnion (s.registered key) (s.node.buffer key).1.schemaOnly).toOption.isSome

/-- A registered column is in the schema of the table. -/
theorem Agreeing.tableSchema {key : TableKey} (h : Agreeing s key) {name : String}
    (hname : name ∈ s.columns key) :
    ∃ schema, s.tableSchema key = some schema ∧ name ∈ schema.map Prod.fst := by
  unfold State.tableSchema
  simp only
  split
  · cases hunion : schemaUnion (s.registered key) (s.node.buffer key).1.schemaOnly with
    | error e =>
        have hnow := h.now
        rw [hunion] at hnow
        cases hnow
    | ok merged => exact ⟨merged, rfl, (schemaUnion_spec hunion).2.1 name hname⟩
  · cases hreg : s.registered key with
    | none =>
        rw [State.columns, hreg] at hname
        cases hname
    | some schema =>
        rw [State.columns, hreg] at hname
        exact ⟨schema, rfl, hname⟩

/-- The schema a scan of the table is planned with. -/
def arrowSchema (schema : Schema) : List (String × ArrowType) :=
  schema.map fun c => (c.1, arrowType c.2)

theorem mandatory_of_mem {schema : Schema} (h : visibilityColumn ∈ schema.map Prod.fst)
    (session : QuerySession) :
    Restriction.visibility visibilityColumn session.authorizations ∈
      mandatoryPredicate session (arrowSchema schema) := by
  have hsome : ((arrowSchema schema).lookup visibilityColumn).isSome := by
    obtain ⟨c, hc, hname⟩ := List.mem_map.mp h
    rw [Option.isSome_iff_ne_none]
    intro hnone
    have hne := List.lookup_eq_none_iff.mp hnone (c.1, arrowType c.2) (List.mem_map_of_mem hc)
    simp [hname] at hne
  rw [mandatoryPredicate, if_pos hsome]
  simp

section Samples

def fresh : State := start ∅ (.new 1) [] ∅ []

def booting : List Action := [.openEngine, .serve]

/-- A body is written, flushed and reclaimed. -/
def flushing (k : Nat) (body : String) : List Action :=
  [.append (sampleCall body), .apply 0 0, .handover k true, .flushOne k (fun _ => 0) none,
    .commit k .landed, .reclaim 1]

/-- A labelled file, one without labels, their merge and a restart. -/
def mergedActs : List Action :=
  booting ++ flushing 0 "m,_visibility=a v=1i 1" ++ flushing 1 "m v=2i 2" ++
    .compact ("db", "m", "1970010100") 2 0 .landed :: booting

def labelled (s : State) (f : FileMeta) : Bool :=
  ((s.footers.lookup f.path).getD []).any fun c => c.1 = visibilityColumn

end Samples

end Completeness

end TimeLake.Registry
