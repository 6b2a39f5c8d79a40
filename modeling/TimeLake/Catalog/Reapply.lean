import TimeLake.Catalog.Manifest
import Mathlib.Data.List.Induction

/-!
One entry folded in twice. `apply_entry` states the contract of a fold into a
set: the same record twice is a no-op. Each part of an entry is described
by what a table, the tombstones and the declarations are afterwards, and the
second application is compared with the first through that description.
-/

namespace TimeLake.Catalog

open TimeLake.Library

/-- The tables an entry drops. -/
def ManifestEntry.drops (e : ManifestEntry) (key : TableKey) : Prop :=
  ∃ d ∈ e.dropTables, key = (d.db, d.table)

instance (e : ManifestEntry) (key : TableKey) : Decidable (e.drops key) :=
  inferInstanceAs (Decidable (∃ d ∈ e.dropTables, _))

def Tombstone.key (t : Tombstone) : TableKey := (t.db, t.table)

section Files

namespace FileIndex

theorem filesFor_push (ix : FileIndex) (f : FileMeta) (key : TableKey) :
    (ix.push f).filesFor key = ix.filesFor key ++ [f].filter fun g => g.key = key := by
  unfold filesFor push
  by_cases hkey : f.key = key
  · subst hkey
    simp
  · rw [AList.lookup_insert_ne (Ne.symm hkey)]
    simp [hkey]

theorem filesFor_foldl_push (adds : List FileMeta) (ix : FileIndex) (key : TableKey) :
    (adds.foldl push ix).filesFor key =
      ix.filesFor key ++ adds.filter fun g => g.key = key := by
  induction adds generalizing ix with
  | nil => simp
  | cons f rest ih =>
      rw [List.foldl_cons, ih, filesFor_push, List.append_assoc, ← List.filter_append]
      rfl

theorem filesFor_retain (ix : FileIndex) (removePaths : List String) (key : TableKey) :
    (ix.retain removePaths).filesFor key =
      (ix.filesFor key).filter fun f => !removePaths.contains f.path := by
  unfold filesFor retain
  rw [AssocMap.lookup_mapVal]
  cases ix.map.lookup key <;> rfl

theorem filesFor_remove (ix : FileIndex) (dropped key : TableKey) :
    (ix.remove dropped).filesFor key = if key = dropped then [] else ix.filesFor key := by
  unfold filesFor remove
  by_cases hkey : key = dropped
  · subst hkey
    simp
  · rw [AList.lookup_erase_ne hkey, if_neg hkey]

end FileIndex

theorem filesFor_foldl_drop (drops : List DroppedTable) (c : Index) (key : TableKey) :
    (drops.foldl Index.dropTable c).files.filesFor key =
      if ∃ d ∈ drops, key = (d.db, d.table) then [] else c.files.filesFor key := by
  induction drops generalizing c with
  | nil => simp
  | cons d rest ih =>
      rw [List.foldl_cons, ih, Index.dropTable]
      dsimp only
      rw [FileIndex.filesFor_remove]
      by_cases hd : key = (d.db, d.table) <;> simp [hd]

/-- What an entry leaves of a table's files. -/
theorem filesFor_applyEntry (c : Index) (e : ManifestEntry) (key : TableKey) :
    (applyEntry c e).files.filesFor key = if e.drops key then [] else
      ((c.files.filesFor key).filter fun f => !e.removePaths.contains f.path) ++
        e.addFiles.filter fun f => f.key = key := by
  have hkept : (if e.removePaths = [] then c.files else c.files.retain e.removePaths).filesFor
      key = (c.files.filesFor key).filter fun f => !e.removePaths.contains f.path := by
    split
    · next h => simp [h]
    · exact c.files.filesFor_retain e.removePaths key
  unfold applyEntry
  rw [filesFor_foldl_drop]
  dsimp only
  rw [FileIndex.filesFor_foldl_push, hkept]
  rfl

/-- The second application removes what the first one added only where the
entry itself names the path or drops the table. -/
theorem files_twice_iff (c : Index) (e : ManifestEntry) :
    (∀ key, (applyEntry (applyEntry c e) e).files.filesFor key =
        (applyEntry c e).files.filesFor key) ↔
      ∀ f ∈ e.addFiles, f.path ∈ e.removePaths ∨ e.drops f.key := by
  have hkey (key : TableKey) :
      (applyEntry (applyEntry c e) e).files.filesFor key =
          (applyEntry c e).files.filesFor key ↔
        e.drops key ∨ ∀ f ∈ e.addFiles, f.key = key → f.path ∈ e.removePaths := by
    rw [filesFor_applyEntry (applyEntry c e), filesFor_applyEntry c]
    by_cases hdrop : e.drops key
    · simp [hdrop]
    · have hcancel (kept again adds : List FileMeta) :
          kept ++ again ++ adds = kept ++ adds ↔ again = [] := by simp
      rw [if_neg hdrop, if_neg hdrop, List.filter_append, List.filter_filter]
      simp only [Bool.and_self]
      rw [hcancel, List.filter_eq_nil_iff]
      simp [hdrop]
  constructor
  · intro h f hf
    rcases (hkey f.key).mp (h f.key) with hdrop | hremoved
    · exact Or.inr hdrop
    · exact Or.inl (hremoved f hf rfl)
  · intro h key
    rw [hkey]
    by_cases hdrop : e.drops key
    · exact Or.inl hdrop
    · right
      rintro f hf rfl
      exact (h f hf).resolve_right hdrop

end Files

section Tombstones

/-- The tombstones of an entry that are new to a list: the first of each id the
list does not know. -/
def unknownTombstones (known : List Tombstone) : List Tombstone → List Tombstone
  | [] => []
  | t :: rest =>
      if known.any fun x => x.id = t.id then unknownTombstones known rest
      else t :: unknownTombstones (known ++ [t]) rest

theorem foldl_pushTombstone (known ts : List Tombstone) :
    ts.foldl pushTombstone known = known ++ unknownTombstones known ts := by
  induction ts generalizing known with
  | nil => simp [unknownTombstones]
  | cons t rest ih =>
      rw [List.foldl_cons, pushTombstone, unknownTombstones]
      split
      · exact ih known
      · rw [ih, List.append_assoc]
        rfl

theorem mem_unknownTombstones {known ts : List Tombstone} {t : Tombstone} :
    t ∈ unknownTombstones known ts ↔
      ts.find? (fun x => x.id = t.id) = some t ∧ ∀ x ∈ known, x.id ≠ t.id := by
  induction ts generalizing known with
  | nil => simp [unknownTombstones]
  | cons u rest ih =>
      rw [unknownTombstones, List.find?_cons]
      by_cases hknown : ∃ x ∈ known, x.id = u.id
      · rw [if_pos (by simpa using hknown), ih]
        by_cases hid : u.id = t.id
        · obtain ⟨x, hx, hxid⟩ := hknown
          constructor
          · rintro ⟨-, hnone⟩
            exact absurd (hxid.trans hid) (hnone x hx)
          · rintro ⟨-, hnone⟩
            exact absurd (hxid.trans hid) (hnone x hx)
        · simp [hid]
      · rw [if_neg (by simpa using hknown), List.mem_cons, ih]
        push Not at hknown
        by_cases hid : u.id = t.id
        · simp only [hid, decide_true, Option.some.injEq]
          constructor
          · rintro (rfl | ⟨-, hnone⟩)
            · exact ⟨rfl, hknown⟩
            · exact absurd hid (hnone u (by simp))
          · rintro ⟨rfl, -⟩
            exact Or.inl rfl
        · have hne : t ≠ u := fun heq => hid (heq ▸ rfl)
          simp only [hid, decide_false, hne, false_or, List.forall_mem_append,
            List.forall_mem_singleton, ne_eq, not_false_eq_true, and_true]

theorem tombstones_foldl_drop (drops : List DroppedTable) (c : Index) :
    (drops.foldl Index.dropTable c).tombstones =
      c.tombstones.filter fun t => !decide (∃ d ∈ drops, t.key = (d.db, d.table)) := by
  induction drops generalizing c with
  | nil => simp
  | cons d rest ih =>
      rw [List.foldl_cons, ih, Index.dropTable]
      dsimp only
      rw [List.filter_filter]
      apply List.filter_congr
      intro t _
      simp [Tombstone.key, Bool.and_comm]

theorem tombstones_applyEntry (c : Index) (e : ManifestEntry) :
    (applyEntry c e).tombstones =
      (c.tombstones ++ unknownTombstones c.tombstones e.tombstones).filter
        fun t => !decide (e.drops t.key) := by
  unfold applyEntry
  rw [tombstones_foldl_drop]
  dsimp only
  rw [foldl_pushTombstone]
  rfl

/-- A tombstone is pushed by the second application when its id was known to the
first one and the entry dropped the table of every tombstone that knew it. -/
theorem tombstones_twice_iff (c : Index) (e : ManifestEntry) :
    (applyEntry (applyEntry c e) e).tombstones = (applyEntry c e).tombstones ↔
      ∀ t, e.tombstones.find? (fun x => x.id = t.id) = some t → ¬ e.drops t.key →
        (∃ x ∈ c.tombstones, x.id = t.id) →
          ∃ x ∈ c.tombstones, x.id = t.id ∧ ¬ e.drops x.key := by
  have hmem {t : Tombstone} : t ∈ (applyEntry c e).tombstones ↔
      (t ∈ c.tombstones ∨ (e.tombstones.find? (fun x => x.id = t.id) = some t ∧
        ∀ x ∈ c.tombstones, x.id ≠ t.id)) ∧ ¬ e.drops t.key := by
    rw [tombstones_applyEntry, List.mem_filter, List.mem_append, mem_unknownTombstones]
    simp
  have hkept : (applyEntry c e).tombstones.filter (fun t => !decide (e.drops t.key)) =
      (applyEntry c e).tombstones := by
    rw [List.filter_eq_self]
    intro t ht
    simpa using (hmem.mp ht).2
  rw [tombstones_applyEntry (applyEntry c e), List.filter_append, hkept,
    List.append_right_eq_self, List.filter_eq_nil_iff]
  constructor
  · rintro h t hfirst hkeep ⟨y, hy, hyid⟩
    by_contra hnone
    have hunknown : ∀ x ∈ (applyEntry c e).tombstones, x.id ≠ t.id := by
      intro x hx hid
      obtain ⟨hold | ⟨-, hnew⟩, hstays⟩ := hmem.mp hx
      · exact hnone ⟨x, hold, hid, hstays⟩
      · exact hnew y hy (hyid.trans hid.symm)
    have hdropped := h t (mem_unknownTombstones.mpr ⟨hfirst, hunknown⟩)
    simp [hkeep] at hdropped
  · intro h t ht hkeep
    obtain ⟨hfirst, hunknown⟩ := mem_unknownTombstones.mp ht
    have hstays : ¬ e.drops t.key := by simpa using hkeep
    by_cases hold : ∃ x ∈ c.tombstones, x.id = t.id
    · obtain ⟨x, hx, hid, hkept⟩ := h t hfirst hstays hold
      exact hunknown x (hmem.mpr ⟨Or.inl hx, hkept⟩) hid
    · have hnew : ∀ x ∈ c.tombstones, x.id ≠ t.id := fun x hx hid => hold ⟨x, hx, hid⟩
      exact hunknown t (hmem.mpr ⟨Or.inr ⟨hfirst, hnew⟩, hstays⟩) rfl

end Tombstones

section Declared

theorem lookup_foldl_declare (decls : List TableSchema) (d : AssocMap TableKey TableSchema)
    (key : TableKey) :
    (decls.foldl (fun d s => d.insert (s.db, s.table) s) d).lookup key =
      ((decls.filter fun s => (s.db, s.table) = key).getLast?).or (d.lookup key) := by
  induction decls using List.reverseRecOn with
  | nil => simp
  | append_singleton init s ih =>
      rw [List.foldl_append, List.foldl_cons, List.foldl_nil, List.filter_append]
      by_cases hs : (s.db, s.table) = key
      · subst hs
        simp
      · rw [AList.lookup_insert_ne (Ne.symm hs), ih]
        simp [hs]

theorem lookup_foldl_dropDeclared (drops : List DroppedTable) (c : Index) (key : TableKey) :
    (drops.foldl Index.dropTable c).declared.lookup key =
      if ∃ d ∈ drops, key = (d.db, d.table) then none else c.declared.lookup key := by
  induction drops generalizing c with
  | nil => simp
  | cons d rest ih =>
      rw [List.foldl_cons, ih, Index.dropTable]
      dsimp only
      by_cases hd : key = (d.db, d.table)
      · subst hd
        simp
      · rw [AList.lookup_erase_ne hd]
        simp [hd]

/-- The last declaration of an entry stands, whatever stood before. -/
theorem declared_applyEntry (c : Index) (e : ManifestEntry) (key : TableKey) :
    (applyEntry c e).declared.lookup key = if e.drops key then none else
      ((e.schemaDecls.filter fun s => (s.db, s.table) = key).getLast?).or
        (c.declared.lookup key) := by
  unfold applyEntry
  rw [lookup_foldl_dropDeclared]
  dsimp only
  rw [lookup_foldl_declare]
  rfl

theorem declared_twice (c : Index) (e : ManifestEntry) (key : TableKey) :
    (applyEntry (applyEntry c e) e).declared.lookup key =
      (applyEntry c e).declared.lookup key := by
  rw [declared_applyEntry (applyEntry c e), declared_applyEntry c]
  by_cases hdrop : e.drops key
  · rw [if_pos hdrop, if_pos hdrop]
  · rw [if_neg hdrop, if_neg hdrop]
    cases (e.schemaDecls.filter fun s => (s.db, s.table) = key).getLast? <;> rfl

end Declared

/-- The files of every table, the tombstones and the declarations are the same. -/
structure Index.Same (a b : Index) : Prop where
  files : ∀ key, a.files.filesFor key = b.files.filesFor key
  tombstones : a.tombstones = b.tombstones
  declared : ∀ key, a.declared.lookup key = b.declared.lookup key

/-- What makes a second application of an entry harmless: every file it adds it
also removes or drops, and no id of its tombstones was known only to tables it
drops. -/
structure ManifestEntry.Harmless (e : ManifestEntry) (c : Index) : Prop where
  files : ∀ f ∈ e.addFiles, f.path ∈ e.removePaths ∨ e.drops f.key
  tombstones : ∀ t, e.tombstones.find? (fun x => x.id = t.id) = some t → ¬ e.drops t.key →
    (∃ x ∈ c.tombstones, x.id = t.id) → ∃ x ∈ c.tombstones, x.id = t.id ∧ ¬ e.drops x.key

/-- An entry folded in twice in a row leaves what it leaves when folded in once
exactly when its files and tombstones are harmless; its declarations always are. -/
theorem applyEntry_twice_iff (c : Index) (e : ManifestEntry) :
    (applyEntry (applyEntry c e) e).Same (applyEntry c e) ↔ e.Harmless c := by
  constructor
  · rintro ⟨hfiles, htombstones, -⟩
    exact ⟨(files_twice_iff c e).mp hfiles, (tombstones_twice_iff c e).mp htombstones⟩
  · rintro ⟨hfiles, htombstones⟩
    exact ⟨(files_twice_iff c e).mpr hfiles, (tombstones_twice_iff c e).mpr htombstones,
      declared_twice c e⟩

/-- A flush's entry, applied to the empty catalog. -/
def flushedOnce : ManifestEntry :=
  { format := 1, seq := 1, removePaths := [], tombstones := [], schemaDecls := [], dropTables := []
    addFiles := [{ db := "poc", table := "m", partition := "2026080809"
                   path := "poc/m/data/2026080809/1-000000.parquet", rows := 1, sizeBytes := 1
                   minTsNs := 1, maxTsNs := 1 }] }

/-- Folded in twice, the one file of a flush is listed twice. -/
theorem flush_twice_lists_twice :
    (([flushedOnce].flatMap fun e => e.addFiles).map fun f => f.path).Nodup ∧
      ((applyEntry (applyEntry (indexOf []) flushedOnce) flushedOnce).files.filesFor
        ("poc", "m")).length = 2 ∧
      ¬ (applyEntry (applyEntry (indexOf []) flushedOnce) flushedOnce).Same
        (applyEntry (indexOf []) flushedOnce) := by
  refine ⟨by decide, by decide, ?_⟩
  intro h
  have hlen := congrArg List.length (h.files ("poc", "m"))
  revert hlen
  decide

end TimeLake.Catalog
