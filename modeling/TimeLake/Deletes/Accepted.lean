import TimeLake.Deletes.Pass
import TimeLake.Library.Run

/-!
What an accepted delete does to the reads that come after it. `delete_where`
asks whether the table exists and not what the named columns are, and the filter
refuses a column without strings; so a tombstone may make its table unreadable,
at once or when a later write brings such a column, and with it the pass stops
before the files of other tables.

The columns of a table are those its buffered rows and its files have. Between
two deletes the files come and go as flushes, merges, rewrites and retention
have it, and a scan may hand the filter any batch of the table's columns.
-/

namespace TimeLake.Deletes

open TimeLake.Library TimeLake.Catalog TimeLake.Rows TimeLake.Query
open TimeLake.Cluster (maxFilesPerTick textCell)

section Machine

inductive DeleteError where
  | readOnly
  | emptyPredicate
  | emptyWindow (start stop : Option Int)
  | noTable (db table : String)
  deriving DecidableEq, Repr

structure DeleteArgs where
  db : String
  table : String
  tagEquals : List (String × String)
  minTsNs : Option Int
  maxTsNs : Option Int
  deriving DecidableEq

structure State where
  readOnly : Bool
  tables : List TableKey
  columns : TableKey → List (String × ArrowType)
  files : List CatalogFile
  tombstones : List Tombstone

def State.initial (readOnly : Bool) : State := ⟨readOnly, [], fun _ => [], [], []⟩

inductive Action where
  | write (key : TableKey) (columns : List (String × ArrowType))
  | store (f : CatalogFile)
  | remove (path : String)
  | drop (key : TableKey)
  | delete (args : DeleteArgs)

namespace State

/-- `tombstones_for`. -/
def tombstonesFor (s : State) (key : TableKey) : List Tombstone :=
  s.tombstones.filter fun t => t.db = key.1 && t.table = key.2

/-- The columns of a batch are columns of its table. -/
def hasColumns (s : State) (key : TableKey) (b : ColumnBatch Row) : Bool :=
  b.columns.all fun p => (s.columns key).contains (p.1, p.2.dataType)

end State

-- `tombstone_id`: the hash of a predicate
variable (tombstoneId : DeleteArgs → String)

def DeleteArgs.windowEmpty (args : DeleteArgs) : Bool :=
  match args.minTsNs, args.maxTsNs with
  | some a, some b => b < a
  | _, _ => false

/-- What `delete_where` checks. -/
def checkDelete (s : State) (args : DeleteArgs) : Except DeleteError Unit :=
  if s.readOnly then .error .readOnly
  else if args.tagEquals.isEmpty && args.minTsNs.isNone && args.maxTsNs.isNone then
    .error .emptyPredicate
  else if args.windowEmpty then .error (.emptyWindow args.minTsNs args.maxTsNs)
  else if s.tables.contains (args.db, args.table) then .ok ()
  else .error (.noTable args.db args.table)

def DeleteArgs.tombstone (args : DeleteArgs) : Tombstone :=
  ⟨tombstoneId args, args.db, args.table, args.tagEquals, args.minTsNs, args.maxTsNs, 0⟩

/-- The tombstone an accepted delete records; one that is there already is not
recorded again. -/
def recorded (s : State) (args : DeleteArgs) : Option Tombstone :=
  match checkDelete s args with
  | .error _ => none
  | .ok () =>
      if s.tombstones.any (·.id = tombstoneId args) then none else some (args.tombstone tombstoneId)

/-- `delete_where`. -/
def deleteWhere (s : State) (args : DeleteArgs) : State :=
  { s with tombstones := s.tombstones ++ (recorded tombstoneId s args).toList }

def step (s : State) : Action → Option State
  | .write key columns => some { s with
      tables := s.tables ++ [key]
      columns := Function.update s.columns key (s.columns key ++ columns) }
  | .store f =>
      if f.batches.all (s.hasColumns f.info.key) then some { s with files := s.files ++ [f] }
      else none
  | .remove path => some { s with files := s.files.filter fun f => f.info.path ≠ path }
  | .drop key => some { s with
      tables := s.tables.filter (· ≠ key)
      columns := Function.update s.columns key []
      files := s.files.filter fun f => f.info.key ≠ key
      tombstones := s.tombstones.filter fun t => ¬(t.db = key.1 ∧ t.table = key.2) }
  | .delete args => some (deleteWhere tombstoneId s args)

/-- The loop of `apply_tombstones_once`: what came of the files it rewrote, and the
error that ended it. -/
def pass (layout : Layout) (tombstones : List Tombstone) :
    Nat → List CatalogFile → List (String × Outcome) × Option PassError
  | _, [] => ([], none)
  | rewritten, f :: rest =>
      if maxFilesPerTick ≤ rewritten then ([], none)
      else
        match rewriteFile layout tombstones f with
        | .error e => ([], some e)
        | .ok .untouched => pass layout tombstones rewritten rest
        | .ok o =>
            let later := pass layout tombstones (rewritten + 1) rest
            ((f.info.path, o) :: later.1, later.2)

end Machine

section Columns

/-- No equality is on a column without strings, up to the first one on a column
the table lacks. -/
def readableIn (columns : List (String × ArrowType)) : List (String × String) → Bool
  | [] => true
  | (tag, _) :: rest =>
      columns.all (·.1 ≠ tag) ||
        (columns.all (fun c => c.1 ≠ tag || isLabelType c.2) && readableIn columns rest)

variable {α : Type} {columns : List (String × ArrowType)}

/-- A batch a scan may hand to the filter: its columns are columns of the table,
strings as strings, in whatever encoding. -/
def Drawn (columns : List (String × ArrowType)) (b : ColumnBatch α) : Prop :=
  ∀ p ∈ b.columns, ∃ c ∈ columns, c.1 = p.1 ∧ isLabelType c.2 = isLabelType p.2.dataType

theorem Drawn.readable {b : ColumnBatch α} (hdrawn : Drawn columns b)
    {tags : List (String × String)} (h : readableIn columns tags = true) :
    b.readable tags = true := by
  induction tags with
  | nil => rfl
  | cons p rest ih =>
      obtain ⟨tag, val⟩ := p
      rw [ColumnBatch.readable]
      cases ha : b.columns.lookup tag with
      | none => rfl
      | some a =>
          obtain ⟨c, hc, hname, htext⟩ := hdrawn (tag, a) (mem_of_lookup ha)
          rw [readableIn, Bool.or_eq_true, Bool.and_eq_true] at h
          rcases h with hmissing | ⟨hstrings, hrest⟩
          · have hne := List.all_eq_true.mp hmissing c hc
            exact absurd hname (by simpa using hne)
          · have hc' := List.all_eq_true.mp hstrings c hc
            have hlabel : isLabelType c.2 = true := by simpa [hname] using hc'
            simp only
            rw [← htext, hlabel, ih hrest]
            rfl

/-- A column of one null. -/
def nullColumn (ty : ArrowType) : ColumnArray :=
  if hlabel : isLabelType ty = true then .strings (.utf8 [none]) rfl
  else if hns : ty = .timestamp .nanosecond then .timestamps [none]
  else if hint : ty = .int64 then .ints [none]
  else .other ty 1 (by simpa using hlabel) ⟨hns, hint⟩

theorem nullColumn_length (ty : ArrowType) : (nullColumn ty).length = 1 := by
  unfold nullColumn
  split
  · rfl
  · split
    · rfl
    · split <;> rfl

theorem nullColumn_label (ty : ArrowType) :
    isLabelType (nullColumn ty).dataType = isLabelType ty := by
  unfold nullColumn
  split
  · next h => rw [h]; rfl
  · next h =>
      split
      · next hns => rw [hns]; rfl
      · split
        · next hint => rw [hint]; rfl
        · rfl

/-- One row with all columns of a table, those without strings first. -/
def wholeBatch (columns : List (String × ArrowType)) : ColumnBatch Unit where
  rows := [()]
  columns := (columns.filter (fun c => !isLabelType c.2) ++
              columns.filter fun c => isLabelType c.2).map
    fun c => (c.1, nullColumn c.2)
  aligned := by
    intro p hp
    obtain ⟨c, _, rfl⟩ := List.mem_map.mp hp
    exact nullColumn_length c.2

theorem mem_wholeBatch {p : String × ColumnArray} (h : p ∈ (wholeBatch columns).columns) :
    ∃ c ∈ columns, c.1 = p.1 ∧ nullColumn c.2 = p.2 := by
  obtain ⟨c, hc, rfl⟩ := List.mem_map.mp h
  rcases List.mem_append.mp hc with hc | hc
  · exact ⟨c, List.mem_of_mem_filter hc, rfl, rfl⟩
  · exact ⟨c, List.mem_of_mem_filter hc, rfl, rfl⟩

theorem wholeBatch_drawn (columns : List (String × ArrowType)) :
    Drawn columns (wholeBatch columns) := by
  intro p hp
  obtain ⟨c, hc, hname, harray⟩ := mem_wholeBatch hp
  exact ⟨c, hc, hname, by rw [← harray, nullColumn_label]⟩

/-- A column without strings comes first under its name. -/
theorem wholeBatch_lookup {tag : String} {a : ColumnArray}
    (h : (wholeBatch columns).columns.lookup tag = some a) :
    isLabelType a.dataType = columns.all fun c => c.1 ≠ tag || isLabelType c.2 := by
  have hcolumns : (wholeBatch columns).columns =
      (columns.filter fun c => !isLabelType c.2).map (fun c => (c.1, nullColumn c.2)) ++
        (columns.filter fun c => isLabelType c.2).map fun c => (c.1, nullColumn c.2) :=
    List.map_append
  rw [hcolumns, List.lookup_append] at h
  cases hnone : ((columns.filter fun c => !isLabelType c.2).map fun c =>
      (c.1, nullColumn c.2)).lookup tag with
  | some a' =>
      rw [hnone, Option.some_or] at h
      obtain rfl := Option.some.inj h
      obtain ⟨c, hc, hpair⟩ := List.mem_map.mp (mem_of_lookup hnone)
      obtain ⟨hname, harray⟩ := Prod.mk.inj hpair
      obtain ⟨hmem, hlabel⟩ := List.mem_filter.mp hc
      have hlabel : isLabelType c.2 = false := by simpa using hlabel
      rw [← harray, nullColumn_label, hlabel]
      exact (List.all_eq_false.mpr ⟨c, hmem, by simp [hname, hlabel]⟩).symm
  | none =>
      rw [hnone, Option.none_or] at h
      obtain ⟨c, hc, hpair⟩ := List.mem_map.mp (mem_of_lookup h)
      obtain ⟨hname, harray⟩ := Prod.mk.inj hpair
      rw [← harray, nullColumn_label, (List.mem_filter.mp hc).2]
      refine (List.all_eq_true.mpr fun d hd => ?_).symm
      by_contra hbad
      have hbad : d.1 = tag ∧ isLabelType d.2 = false := by simpa using hbad
      have hin : (tag, nullColumn d.2) ∈ (columns.filter fun c => !isLabelType c.2).map fun c =>
          (c.1, nullColumn c.2) :=
        List.mem_map.mpr ⟨d, List.mem_filter.mpr ⟨hd, by simp [hbad.2]⟩, by rw [hbad.1]⟩
      exact (by simpa using List.lookup_eq_none_iff.mp hnone _ hin)

theorem readableIn_of_wholeBatch {tags : List (String × String)}
    (h : (wholeBatch columns).readable tags = true) : readableIn columns tags = true := by
  induction tags with
  | nil => rfl
  | cons p rest ih =>
      obtain ⟨tag, val⟩ := p
      rw [readableIn, Bool.or_eq_true, Bool.and_eq_true]
      rw [ColumnBatch.readable] at h
      cases ha : (wholeBatch columns).columns.lookup tag with
      | none =>
          left
          refine List.all_eq_true.mpr fun c hc => ?_
          by_contra hbad
          have hname : c.1 = tag := by simpa using hbad
          have hin : (tag, nullColumn c.2) ∈ (wholeBatch columns).columns := by
            refine List.mem_map.mpr ⟨c, ?_, by rw [hname]⟩
            cases hlabel : isLabelType c.2 with
            | true => exact List.mem_append_right _ (List.mem_filter.mpr ⟨hc, hlabel⟩)
            | false => exact List.mem_append_left _ (List.mem_filter.mpr ⟨hc, by simp [hlabel]⟩)
          exact (by simpa using List.lookup_eq_none_iff.mp ha _ hin)
      | some a =>
          right
          rw [ha] at h
          simp only [Bool.and_eq_true] at h
          exact ⟨by rw [← wholeBatch_lookup ha]; exact h.1, ih h.2⟩

end Columns

section Runs

variable {tombstoneId : DeleteArgs → String}

/-- Every scan of every table applies its tombstones without error, and so does the
pass over all files. -/
def Unbroken (s : State) : Prop :=
  (∀ (key : TableKey) (α : Type) (b : ColumnBatch α), Drawn (s.columns key) b →
    ∃ rows, applyTombstone b (s.tombstonesFor key) = .ok rows) ∧
  ∀ layout, (pass layout s.tombstones 0 s.files).2 = none

/-- No delete is recorded on a column without strings, and no write brings one
under a tombstone of its table. -/
def readsStrings (tombstoneId : DeleteArgs → String) (s : State) : Action → Prop
  | .write key columns =>
      ∀ t ∈ s.tombstonesFor key, readableIn (s.columns key ++ columns) t.tagEquals = true
  | .delete args =>
      recorded tombstoneId s args ≠ none →
        readableIn (s.columns (args.db, args.table)) args.tagEquals = true
  | _ => True

structure Inv (s : State) : Prop where
  readable : ∀ key, ∀ t ∈ s.tombstonesFor key, readableIn (s.columns key) t.tagEquals = true
  files : ∀ f ∈ s.files, ∀ b ∈ f.batches, s.hasColumns f.info.key b = true

theorem inv_initial (readOnly : Bool) : Inv (.initial readOnly) where
  readable := fun _ _ h => by cases h
  files := fun _ h => by cases h

theorem drawn_of_hasColumns {s : State} {key : TableKey} {b : ColumnBatch Row}
    (h : s.hasColumns key b = true) : Drawn (s.columns key) b := by
  intro p hp
  have hmem := List.all_eq_true.mp h p hp
  exact ⟨_, List.contains_iff_mem.mp hmem, rfl, rfl⟩

theorem pass_ok {layout : Layout} {tombstones : List Tombstone} {files : List CatalogFile}
    (h : ∀ f ∈ files, ∃ o, rewriteFile layout tombstones f = .ok o) (rewritten : Nat) :
    (pass layout tombstones rewritten files).2 = none := by
  induction files generalizing rewritten with
  | nil => rfl
  | cons f rest ih =>
      have hrest := ih fun g hg => h g (List.mem_cons_of_mem _ hg)
      obtain ⟨o, ho⟩ := h f List.mem_cons_self
      rw [pass]
      split
      · rfl
      · rw [ho]
        cases o with
        | untouched => exact hrest rewritten
        | dropped | replaced => exact hrest (rewritten + 1)

theorem Inv.unbroken {s : State} (h : Inv s) : Unbroken s := by
  constructor
  · intro key α b hdrawn
    exact (applyTombstone_ok_iff b _).mpr
      (.inr fun t ht => hdrawn.readable (h.readable key t ht))
  · intro layout
    refine pass_ok (fun f hf => ?_) 0
    have hread : Readable (touching s.tombstones f.info) f.batches := by
      refine fun b hb => .inr fun t ht => ?_
      exact (drawn_of_hasColumns (h.files f hf b hb)).readable
        (h.readable f.info.key t (touching_subset _ _ ht))
    obtain ⟨o, ho, _⟩ := rewriteFile_eq layout hread
    exact ⟨o, ho⟩

/-- Where every batch of a table can be filtered its tombstones read strings. -/
theorem Unbroken.readable {s : State} (h : Unbroken s) (key : TableKey) :
    ∀ t ∈ s.tombstonesFor key, readableIn (s.columns key) t.tagEquals = true := by
  intro t ht
  have hok := (applyTombstone_ok_iff _ _).mp
    (h.1 key Unit (wholeBatch (s.columns key)) (wholeBatch_drawn _))
  exact readableIn_of_wholeBatch (hok.resolve_left (List.cons_ne_nil _ _) t ht)

theorem hasColumns_mono {s t : State} {key : TableKey} {b : ColumnBatch Row}
    (hcolumns : s.columns key ⊆ t.columns key) (h : s.hasColumns key b = true) :
    t.hasColumns key b = true := by
  refine List.all_eq_true.mpr fun p hp => ?_
  have hmem := List.contains_iff_mem.mp (List.all_eq_true.mp h p hp)
  exact List.contains_iff_mem.mpr (hcolumns hmem)

theorem recorded_eq {s : State} {args : DeleteArgs} {t : Tombstone}
    (h : recorded tombstoneId s args = some t) : t = args.tombstone tombstoneId := by
  unfold recorded at h
  split at h
  · cases h
  · split at h
    · cases h
    · exact (Option.some.inj h).symm

theorem Inv.step {s t : State} {a : Action} (h : Inv s) (hok : readsStrings tombstoneId s a)
    (hs : step tombstoneId s a = some t) : Inv t := by
  cases a with
  | write key columns =>
      obtain rfl := Option.some.inj hs
      constructor
      · intro k u hu
        by_cases hk : k = key
        · subst hk
          simp only [Function.update_self]
          exact hok u hu
        · simp only [Function.update_of_ne hk]
          exact h.readable k u hu
      · intro f hf b hb
        refine hasColumns_mono ?_ (h.files f hf b hb)
        by_cases hk : f.info.key = key
        · simp only [hk, Function.update_self]
          exact List.subset_append_left _ _
        · simp only [Function.update_of_ne hk]
          exact List.Subset.refl _
  | store f =>
      simp only [Deletes.step] at hs
      split at hs
      · next hcolumns =>
          obtain rfl := Option.some.inj hs
          refine ⟨h.readable, fun g hg => ?_⟩
          rcases List.mem_append.mp hg with hg | hg
          · exact h.files g hg
          · obtain rfl := List.mem_singleton.mp hg
            exact List.all_eq_true.mp hcolumns
      · cases hs
  | remove path =>
      obtain rfl := Option.some.inj hs
      exact ⟨h.readable, fun f hf => h.files f (List.mem_of_mem_filter hf)⟩
  | drop key =>
      obtain rfl := Option.some.inj hs
      constructor
      · intro k u hu
        obtain ⟨hmem, hkey⟩ := List.mem_filter.mp hu
        obtain ⟨hmem, hout⟩ := List.mem_filter.mp hmem
        have hne : k ≠ key := by
          rintro rfl
          simp_all
        simp only [Function.update_of_ne hne]
        exact h.readable k u (List.mem_filter.mpr ⟨hmem, hkey⟩)
      · intro f hf b hb
        obtain ⟨hmem, hne⟩ := List.mem_filter.mp hf
        refine hasColumns_mono ?_ (h.files f hmem b hb)
        have hne : f.info.key ≠ key := by simpa using hne
        simp only [Function.update_of_ne hne]
        exact List.Subset.refl _
  | delete args =>
      obtain rfl := Option.some.inj hs
      refine ⟨?_, h.files⟩
      intro k u hu
      obtain ⟨hmem, hkey⟩ := List.mem_filter.mp hu
      rcases List.mem_append.mp hmem with hmem | hmem
      · exact h.readable k u (List.mem_filter.mpr ⟨hmem, hkey⟩)
      · have hrec : recorded tombstoneId s args = some u := by simpa using hmem
        have hread := hok (by simp [hrec])
        obtain rfl := recorded_eq hrec
        have hk : k = (args.db, args.table) := by
          rw [Bool.and_eq_true, decide_eq_true_eq, decide_eq_true_eq] at hkey
          exact Prod.ext hkey.1.symm hkey.2.symm
        subst hk
        exact hread

/-- An unbroken state is only reached by a step that reads strings. -/
theorem readsStrings_of_unbroken {s t : State} {a : Action}
    (hs : step tombstoneId s a = some t) (h : Unbroken t) : readsStrings tombstoneId s a := by
  cases a with
  | write key columns =>
      obtain rfl := Option.some.inj hs
      intro u hu
      have hread := h.readable key u hu
      simpa only [Function.update_self] using hread
  | delete args =>
      obtain rfl := Option.some.inj hs
      intro hrec
      obtain ⟨u, hu⟩ := Option.ne_none_iff_exists'.mp hrec
      have hmem : u ∈ (deleteWhere tombstoneId s args).tombstonesFor (args.db, args.table) := by
        refine List.mem_filter.mpr ⟨List.mem_append_right _ (by simp [hu]), ?_⟩
        rw [recorded_eq hu]
        simp [DeleteArgs.tombstone]
      have hread := h.readable (args.db, args.table) u hmem
      rw [recorded_eq hu] at hread
      exact hread
  | store f | remove path | drop key => trivial

/-- A run leads through unbroken states only, if and only if each of its steps
reads strings: no delete it records is on a column without strings, and no write
brings one under a tombstone. -/
theorem deletes_harmless_iff {readOnly : Bool} {acts : List Action} {s : State}
    (run : Run (step tombstoneId) (fun _ _ => True) (.initial readOnly) acts s) :
    Throughout (step tombstoneId) Unbroken (.initial readOnly) acts ↔
      Run (step tombstoneId) (readsStrings tombstoneId) (.initial readOnly) acts s := by
  constructor
  · exact fun h => h.run (fun _ _ _ _ hs ht => readsStrings_of_unbroken hs ht) run
  · exact fun hreads => hreads.throughout (fun _ _ _ hinv hok hs => hinv.step hok hs)
      (fun _ hinv => hinv.unbroken) (inv_initial readOnly)

end Runs

section Sample

theorem noTags_sorted : ([] : List (String × String)).Pairwise fun a b => a.1 < b.1 := .nil

def cpuBatch : ColumnBatch Row where
  rows := [⟨5, ⟨[], noTags_sorted⟩, [("v", .int 1)], 0⟩]
  columns := [("time", .timestamps [some 5]), ("v", .ints [some 1])]
  aligned := by simp [ColumnArray.length]

def memBatch : ColumnBatch Row where
  rows := [⟨5, ⟨[("host", "a")], by simp⟩, [("v", .int 1)], 1⟩]
  columns := [("time", .timestamps [some 5]), ("host", .strings (.utf8 [some "a"]) rfl),
    ("v", .ints [some 1])]
  aligned := by simp [ColumnArray.length, LabelArray.labels]

theorem cpuBatch_holds : HoldsRows cpuBatch where
  time := rfl
  cells := by
    intro name i r hr
    cases i with
    | succ i => cases hr
    | zero =>
        obtain rfl := Option.some.inj hr
        have hnone : textCell ⟨5, ⟨[], .nil⟩, [("v", .int 1)], 0⟩ name = none := by
          rw [textCell]
          simp only [TagSet.get, List.lookup_nil, lookup_cons_eq_ite]
          split <;> simp_all
        rw [hnone, ColumnBatch.textAt]
        simp only [cpuBatch, lookup_cons_eq_ite, List.lookup_nil]
        split
        · rfl
        · split <;> rfl

theorem memBatch_holds : HoldsRows memBatch where
  time := rfl
  cells := by
    intro name i r hr
    cases i with
    | succ i => cases hr
    | zero =>
        obtain rfl := Option.some.inj hr
        simp only [ColumnBatch.textAt, textCell, TagSet.get, memBatch, lookup_cons_eq_ite,
          List.lookup_nil]
        by_cases htime : name = "time"
        · subst htime
          rfl
        · by_cases hhost : name = "host"
          · subst hhost
            rfl
          · by_cases hv : name = "v"
            · subst hv
              rfl
            · simp [htime, hhost, hv]

def cpuFile : CatalogFile where
  info := ⟨"db", "cpu", "1970010100", "db/cpu/1", 1, 0, 5, 5⟩
  batches := [cpuBatch]
  holds := by
    intro b hb
    obtain rfl := List.mem_singleton.mp hb
    exact cpuBatch_holds
  written := ⟨⟨none, []⟩, cpuBatch.rows, "1970010100", by decide +kernel, by decide +kernel⟩
  range := by decide +kernel

def memFile : CatalogFile where
  info := ⟨"db", "mem", "1970010100", "db/mem/1", 1, 0, 5, 5⟩
  batches := [memBatch]
  holds := by
    intro b hb
    obtain rfl := List.mem_singleton.mp hb
    exact memBatch_holds
  written := ⟨⟨none, ["host"]⟩, memBatch.rows, "1970010100", by decide +kernel, by decide +kernel⟩
  range := by decide +kernel

def store : List Action :=
  [.write ("db", "cpu") [("time", .timestamp .nanosecond), ("v", .int64)],
    .write ("db", "mem") [("time", .timestamp .nanosecond), ("host", .utf8), ("v", .int64)],
    .store cpuFile, .store memFile]

def deleteHosts : DeleteArgs := ⟨"db", "mem", [("host", "a")], none, none⟩

def deleteNumber : DeleteArgs := ⟨"db", "cpu", [("v", "1")], none, none⟩

def idOf (args : DeleteArgs) : String := args.table

/-- The state with some files and tombstones. -/
def stored (files : List CatalogFile) (tombstones : List Tombstone) : State where
  readOnly := false
  tables := [("db", "cpu"), ("db", "mem")]
  columns := Function.update
    (Function.update (fun _ => []) ("db", "cpu") [("time", .timestamp .nanosecond), ("v", .int64)])
    ("db", "mem") [("time", .timestamp .nanosecond), ("host", .utf8), ("v", .int64)]
  files := files
  tombstones := tombstones

theorem run_store {ok : State → Action → Prop}
    (hok : ∀ s, s.tombstones = [] → ∀ a ∈ store, ok s a) :
    Run (step idOf) ok (.initial false) store (stored [cpuFile, memFile] []) := by
  have hcpu : cpuFile.batches.all (State.hasColumns (stored [] []) cpuFile.info.key) = true := by
    decide +kernel
  have hmem : memFile.batches.all
      (State.hasColumns (stored [cpuFile] []) memFile.info.key) = true := by
    decide +kernel
  have hfirst : step idOf (stored [] []) (.store cpuFile) = some (stored [cpuFile] []) := by
    rw [step, if_pos hcpu]
    rfl
  have hsecond : step idOf (stored [cpuFile] []) (.store memFile) =
      some (stored [cpuFile, memFile] []) := by
    rw [step, if_pos hmem]
    rfl
  exact .cons (hok _ rfl _ (by simp [store])) rfl (.cons (hok _ rfl _ (by simp [store])) rfl
    (.cons (hok _ rfl _ (by simp [store])) hfirst
      (.cons (hok _ rfl _ (by simp [store])) hsecond (.nil _))))

theorem delete_hosts_step : step idOf (stored [cpuFile, memFile] []) (.delete deleteHosts) =
    some (stored [cpuFile, memFile] [deleteHosts.tombstone idOf]) := rfl

theorem delete_number_step :
    step idOf (stored [cpuFile, memFile] [deleteHosts.tombstone idOf]) (.delete deleteNumber) =
      some (stored [cpuFile, memFile]
        [deleteHosts.tombstone idOf, deleteNumber.tombstone idOf]) := rfl

/-- A delete of one host reads strings, and every read goes on. -/
theorem deleteHosts_harmless : Throughout (step idOf) Unbroken (.initial false)
    (store ++ [.delete deleteHosts]) := by
  have hreads : Run (step idOf) (readsStrings idOf) (.initial false)
      (store ++ [.delete deleteHosts])
      (stored [cpuFile, memFile] [deleteHosts.tombstone idOf]) := by
    refine (run_store ?_).snoc (fun _ => by decide +kernel) delete_hosts_step
    intro s hnone a ha
    have hfor : ∀ key, s.tombstonesFor key = [] := by
      intro key
      rw [State.tombstonesFor, hnone]
      rfl
    cases a with
    | write key columns =>
        intro t ht
        rw [hfor] at ht
        cases ht
    | delete args => simp [store] at ha
    | store f | remove path | drop key => trivial
  exact (deletes_harmless_iff (hreads.mono fun _ _ _ => trivial)).mpr hreads

/-- A delete on a number is accepted; every scan of its table fails, and the pass
stops there, before the file of another table it would have dropped. -/
theorem number_column_breaks : ∃ s,
    Run (step idOf) (fun _ _ => True) (.initial false)
      (store ++ [.delete deleteHosts, .delete deleteNumber]) s ∧
    applyTombstone cpuBatch (s.tombstonesFor ("db", "cpu")) = .error (.tagNotString .int64) ∧
    (∀ layout, pass layout s.tombstones 0 s.files =
      ([], some (.restriction "db/cpu/1" (.tagNotString .int64)))) ∧
    (∀ layout, rewriteFile layout s.tombstones memFile = .ok .dropped) ∧ ¬Unbroken s := by
  refine ⟨stored [cpuFile, memFile] [deleteHosts.tombstone idOf, deleteNumber.tombstone idOf], ?_,
    ?_, ?_, ?_, ?_⟩
  · have hrun := (@run_store (fun _ _ => True) fun _ _ _ _ => trivial).snoc trivial
      delete_hosts_step
    have hrun' := hrun.snoc trivial delete_number_step
    simpa using hrun'
  · decide +kernel
  · intro layout
    rfl
  · intro layout
    rfl
  · intro h
    have hread := h.readable ("db", "cpu") (deleteNumber.tombstone idOf) (by decide +kernel)
    revert hread
    decide +kernel

end Sample

end TimeLake.Deletes
