import TimeLake.Library.AssocMap
import TimeLake.Library.Decimal

/-!
The manifest log of `crates/catalog`: the entries a commit appends and the
in-memory index a node folds them into. `applyEntry` is the fold step shared
by `Catalog::load`, `catch_up` and a node's own commits. Manifest objects are
kept as the entries `serde_json` writes and reads back; `FileMeta` and the
other records carry the fields of their Rust structs.
-/

namespace TimeLake.Catalog

open TimeLake.Library

structure FileMeta where
  db : String
  table : String
  partition : String
  path : String
  rows : Nat
  sizeBytes : Nat
  minTsNs : Int
  maxTsNs : Int
  deriving DecidableEq, Repr

abbrev TableKey := String × String

def FileMeta.key (f : FileMeta) : TableKey := (f.db, f.table)

structure Tombstone where
  id : String
  db : String
  table : String
  tagEquals : List (String × String)
  minTsNs : Option Int
  maxTsNs : Option Int
  createdSeq : Nat
  deriving DecidableEq, Repr

inductive ColumnType where
  | float | integer | unsigned | boolean | string
  deriving DecidableEq, Repr

structure TableColumn where
  name : String
  ty : ColumnType
  tag : Bool
  deriving DecidableEq, Repr

structure TableSchema where
  db : String
  table : String
  columns : List TableColumn
  deriving DecidableEq, Repr

structure DroppedTable where
  db : String
  table : String
  deriving DecidableEq, Repr

def manifestFormatVersion : Nat := 1

structure ManifestEntry where
  format : Nat
  seq : Nat
  addFiles : List FileMeta
  removePaths : List String
  tombstones : List Tombstone
  schemaDecls : List TableSchema
  dropTables : List DroppedTable
  deriving DecidableEq, Repr

/-- `HashMap<(String, String), Vec<FileMeta>>`. A file is only ever pushed
under its own database and table, which the structure records. -/
structure FileIndex where
  map : AssocMap TableKey (List FileMeta)
  keyed : ∀ k l, map.lookup k = some l → ∀ f ∈ l, f.key = k

namespace FileIndex

theorem ext {a b : FileIndex} (h : a.map = b.map) : a = b := by
  cases a
  cases b
  cases h
  rfl

def empty : FileIndex where
  map := ∅
  keyed := by simp

/-- `files.entry(key).or_default().push(f)`. -/
def push (ix : FileIndex) (f : FileMeta) : FileIndex where
  map := ix.map.insert f.key ((ix.map.lookup f.key).getD [] ++ [f])
  keyed := by
    intro k l hl g hg
    by_cases hk : k = f.key
    · subst hk
      rw [AList.lookup_insert] at hl
      obtain rfl := Option.some.inj hl
      rcases List.mem_append.mp hg with hold | hnew
      · cases hlook : ix.map.lookup f.key with
        | none => simp [hlook] at hold
        | some old => exact ix.keyed _ _ hlook g (by simpa [hlook] using hold)
      · rw [List.mem_singleton.mp hnew]
    · rw [AList.lookup_insert_ne hk] at hl
      exact ix.keyed _ _ hl g hg

/-- `list.retain(|f| !remove_paths.contains(&f.path))` on every list. -/
def retain (ix : FileIndex) (removePaths : List String) : FileIndex where
  map := AssocMap.mapVal (fun l => l.filter fun f => !removePaths.contains f.path) ix.map
  keyed := by
    intro k l hl f hf
    rw [AssocMap.lookup_mapVal, Option.map_eq_some_iff] at hl
    obtain ⟨old, hold, rfl⟩ := hl
    exact ix.keyed _ _ hold f (List.mem_of_mem_filter hf)

def remove (ix : FileIndex) (key : TableKey) : FileIndex where
  map := ix.map.erase key
  keyed := by
    intro k l hl
    by_cases hk : k = key
    · subst hk
      rw [AList.lookup_erase] at hl
      cases hl
    · rw [AList.lookup_erase_ne hk] at hl
      exact ix.keyed _ _ hl

/-- `Catalog::all_files`, in one of the orders the hash map may yield. -/
def allFiles (ix : FileIndex) : List FileMeta :=
  (AssocMap.values ix.map).flatten

/-- `Catalog::files_for`. -/
def filesFor (ix : FileIndex) (key : TableKey) : List FileMeta :=
  (ix.map.lookup key).getD []

@[simp] theorem allFiles_empty : empty.allFiles = [] := rfl

theorem mem_allFiles {ix : FileIndex} {f : FileMeta} :
    f ∈ ix.allFiles ↔ ∃ l, ix.map.lookup f.key = some l ∧ f ∈ l := by
  simp only [allFiles, List.mem_flatten, AssocMap.mem_values]
  constructor
  · rintro ⟨l, ⟨k, hk⟩, hf⟩
    exact ⟨l, by rw [ix.keyed k l hk f hf]; exact hk, hf⟩
  · rintro ⟨l, hl, hf⟩
    exact ⟨l, ⟨_, hl⟩, hf⟩

theorem mem_filesFor {ix : FileIndex} {key : TableKey} {f : FileMeta} :
    f ∈ ix.filesFor key ↔ f ∈ ix.allFiles ∧ f.key = key := by
  rw [mem_allFiles, filesFor]
  cases h : ix.map.lookup key with
  | none =>
      simp only [Option.getD_none, List.not_mem_nil, false_iff]
      rintro ⟨⟨l, hl, _⟩, rfl⟩
      rw [h] at hl
      cases hl
  | some l =>
      simp only [Option.getD_some]
      constructor
      · intro hf
        have hk := ix.keyed _ _ h f hf
        exact ⟨⟨l, by rw [hk]; exact h, hf⟩, hk⟩
      · rintro ⟨⟨l', hl', hf⟩, rfl⟩
        rw [h] at hl'
        cases hl'
        exact hf

theorem allFiles_push (ix : FileIndex) (f : FileMeta) :
    (ix.push f).allFiles.Perm (f :: ix.allFiles) := by
  unfold allFiles push
  simp only [AssocMap.values_insert, List.flatten_cons]
  cases h : ix.map.lookup f.key with
  | none =>
      rw [AssocMap.erase_eq_self h]
      simp
  | some l =>
      have hperm := (AssocMap.values_perm_erase h).flatten
      simp only [List.flatten_cons] at hperm
      simp only [Option.getD_some, List.append_assoc, List.singleton_append]
      exact List.perm_middle.trans (hperm.symm.cons f)

theorem allFiles_retain (ix : FileIndex) (removePaths : List String) :
    (ix.retain removePaths).allFiles =
      ix.allFiles.filter fun f => !removePaths.contains f.path := by
  simp [allFiles, retain, List.filter_flatten]

theorem allFiles_remove (ix : FileIndex) (key : TableKey) :
    (ix.remove key).allFiles.Perm (ix.allFiles.filter fun f => f.key ≠ key) := by
  have hout : ∀ f ∈ (ix.remove key).allFiles, f.key ≠ key := by
    intro f hf heq
    obtain ⟨l, hl, _⟩ := mem_allFiles.mp hf
    rw [heq] at hl
    simp [remove] at hl
  cases h : ix.map.lookup key with
  | none =>
      have hsame : ix.remove key = ix := ext (AssocMap.erase_eq_self h)
      rw [hsame] at hout ⊢
      rw [List.filter_eq_self.mpr (by simpa using hout)]
  | some l =>
      have hperm : ix.allFiles.Perm (l ++ (ix.remove key).allFiles) := by
        simpa [allFiles, remove] using (AssocMap.values_perm_erase h).flatten
      have hl : l.filter (fun f => f.key ≠ key) = [] := by
        rw [List.filter_eq_nil_iff]
        intro f hf
        simpa using ix.keyed _ _ h f hf
      have hfilter := hperm.filter fun f => f.key ≠ key
      have hself : (ix.remove key).allFiles.filter (fun f => f.key ≠ key) =
          (ix.remove key).allFiles := List.filter_eq_self.mpr (by simpa using hout)
      rw [List.filter_append, hl, List.nil_append, hself] at hfilter
      exact hfilter.symm

end FileIndex

/-- The three maps a node folds the log into. -/
structure Index where
  files : FileIndex
  tombstones : List Tombstone
  declared : AssocMap TableKey TableSchema

def Index.empty : Index := ⟨.empty, [], ∅⟩

/-- A tombstone already known under its id is not added again. -/
def pushTombstone (known : List Tombstone) (t : Tombstone) : List Tombstone :=
  if known.any fun x => x.id = t.id then known else known ++ [t]

def Index.dropTable (c : Index) (d : DroppedTable) : Index where
  files := c.files.remove (d.db, d.table)
  tombstones := c.tombstones.filter fun t => !(t.db = d.db && t.table = d.table)
  declared := c.declared.erase (d.db, d.table)

/-- `apply_entry`: declarations, removals, additions, tombstones, drops. -/
def applyEntry (c : Index) (e : ManifestEntry) : Index :=
  let declared := e.schemaDecls.foldl (fun d s => d.insert (s.db, s.table) s) c.declared
  let kept := if e.removePaths = [] then c.files else c.files.retain e.removePaths
  let files := e.addFiles.foldl FileIndex.push kept
  let tombstones := e.tombstones.foldl pushTombstone c.tombstones
  e.dropTables.foldl Index.dropTable ⟨files, tombstones, declared⟩

/-- The index of a log: every entry folded in, oldest first. -/
def indexOf (log : List ManifestEntry) : Index :=
  log.foldl applyEntry Index.empty

/-- The files the catalog lists after a log. -/
def listed (log : List ManifestEntry) : List FileMeta :=
  (indexOf log).files.allFiles

@[simp] theorem indexOf_nil : indexOf [] = Index.empty := rfl

@[simp] theorem indexOf_snoc (log : List ManifestEntry) (e : ManifestEntry) :
    indexOf (log ++ [e]) = applyEntry (indexOf log) e := by
  simp [indexOf]

private theorem allFiles_foldl_push (ix : FileIndex) (adds : List FileMeta) :
    (adds.foldl FileIndex.push ix).allFiles.Perm (ix.allFiles ++ adds) := by
  induction adds generalizing ix with
  | nil => simp
  | cons f rest ih =>
      rw [List.foldl_cons]
      refine (ih (ix.push f)).trans ?_
      exact ((ix.allFiles_push f).append_right rest).trans List.perm_middle.symm

def droppedBy (e : ManifestEntry) (f : FileMeta) : Prop :=
  ∃ d ∈ e.dropTables, f.key = (d.db, d.table)

instance (e : ManifestEntry) (f : FileMeta) : Decidable (droppedBy e f) :=
  inferInstanceAs (Decidable (∃ d ∈ e.dropTables, _))

private theorem allFiles_foldl_drop (c : Index) (drops : List DroppedTable) :
    (drops.foldl Index.dropTable c).files.allFiles.Perm
      (c.files.allFiles.filter fun f => !decide (∃ d ∈ drops, f.key = (d.db, d.table))) := by
  induction drops generalizing c with
  | nil => simp
  | cons d rest ih =>
      rw [List.foldl_cons]
      refine (ih (c.dropTable d)).trans ?_
      refine ((c.files.allFiles_remove (d.db, d.table)).filter _).trans ?_
      rw [List.filter_filter]
      apply List.Perm.of_eq
      apply List.filter_congr
      intro f _
      by_cases h : f.key = (d.db, d.table) <;> simp [h]

/-- What one entry does to the listed files: the named paths leave, the added
files come, and the dropped tables leave with everything they then hold. -/
theorem allFiles_applyEntry (c : Index) (e : ManifestEntry) :
    (applyEntry c e).files.allFiles.Perm
      (((c.files.allFiles.filter fun f => !e.removePaths.contains f.path) ++
        e.addFiles).filter fun f => !decide (droppedBy e f)) := by
  unfold applyEntry
  refine (allFiles_foldl_drop _ e.dropTables).trans ?_
  apply List.Perm.filter
  refine (allFiles_foldl_push _ e.addFiles).trans ?_
  apply List.Perm.append_right
  split
  · next h => simp [h]
  · rw [FileIndex.allFiles_retain]

theorem listed_snoc (log : List ManifestEntry) (e : ManifestEntry) :
    (listed (log ++ [e])).Perm
      (((listed log).filter fun f => !e.removePaths.contains f.path) ++
        e.addFiles |>.filter fun f => !decide (droppedBy e f)) := by
  simpa [listed] using allFiles_applyEntry (indexOf log) e

theorem mem_listed_snoc {log : List ManifestEntry} {e : ManifestEntry} {f : FileMeta} :
    f ∈ listed (log ++ [e]) ↔
      ((f ∈ listed log ∧ f.path ∉ e.removePaths) ∨ f ∈ e.addFiles) ∧ ¬ droppedBy e f := by
  rw [(listed_snoc log e).mem_iff]
  simp only [List.mem_filter, List.mem_append, Bool.not_eq_true', decide_eq_false_iff_not,
    List.contains_eq_mem]

@[simp] theorem listed_nil : listed [] = [] := rfl

/-- The first path that is no longer in the catalog, if any. -/
def firstAbsent (files : FileIndex) (removePaths : List String) : Option String :=
  removePaths.find? fun path =>
    !(AssocMap.values files.map).any fun list => list.any fun f => f.path = path

theorem firstAbsent_eq_none {files : FileIndex} {removePaths : List String} :
    firstAbsent files removePaths = none ↔
      ∀ path ∈ removePaths, ∃ f ∈ files.allFiles, f.path = path := by
  simp only [firstAbsent, List.find?_eq_none, FileIndex.allFiles, List.mem_flatten]
  constructor
  · intro h path hpath
    have := h path hpath
    simp only [Bool.not_eq_true, Bool.not_eq_false', List.any_eq_true,
      decide_eq_true_eq] at this
    obtain ⟨l, hl, f, hf, heq⟩ := this
    exact ⟨f, ⟨l, hl, hf⟩, heq⟩
  · intro h path hpath
    obtain ⟨f, ⟨l, hl, hf⟩, heq⟩ := h path hpath
    simp only [Bool.not_eq_true, Bool.not_eq_false', List.any_eq_true,
      decide_eq_true_eq]
    exact ⟨l, hl, f, hf, heq⟩

/-- `format!("catalog/manifest/{seq:012}.json")`. -/
def manifestPath (seq : Nat) : String :=
  "catalog/manifest/" ++ String.ofList (padNat 12 seq) ++ ".json"

theorem manifestPath_injective : Function.Injective manifestPath := by
  intro a b h
  have hdigits := (String.append_right_inj _).mp ((String.append_left_inj _).mp h)
  exact padNat_injective 12 (String.ofList_injective hdigits)

/-- Twelve digits keep the listing in commit order only below `10 ^ 12`. -/
theorem manifestPath_lt {a b : Nat} (hab : a < b) (hb : b < 10 ^ 12) :
    manifestPath a < manifestPath b :=
  string_padNat_lt _ _ (by decide) hab hb

end TimeLake.Catalog
