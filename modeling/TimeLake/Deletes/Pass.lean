import TimeLake.Deletes.Filter
import TimeLake.Cluster.Machine
import TimeLake.Library.Fallible

/-!
The pass `apply_tombstones_once` of `crates/server`: it reads every file that a
tombstone of its table may touch, filters its batches as a query would, and puts
what is left in the file's place. The range of times a file is catalogued with
decides which tombstones may touch it, and the rows that are left go through a
merge of one, which keeps one row for each primary key and sorts them.
-/

namespace TimeLake.Deletes

open TimeLake.Library TimeLake.Catalog TimeLake.Rows TimeLake.Query
open TimeLake.Cluster (tombstoneOverlapsFile textCell matchesTombstone applyTombstones)

section Files

/-- The columns of a batch hold what its rows have. -/
structure HoldsRows (b : ColumnBatch Row) : Prop where
  time : b.columns.lookup "time" = some (.timestamps (b.rows.map fun r => some r.time))
  cells : ∀ name i r, b.rows[i]? = some r → b.textAt name i = textCell r name

/-- A file of the catalog with its batches: what a flush or a merge wrote, one
piece of a prepared batch, catalogued with the range of its times. -/
structure CatalogFile where
  info : FileMeta
  batches : List (ColumnBatch Row)
  holds : ∀ b ∈ batches, HoldsRows b
  written : ∃ (c : Clustering) (buffered : List Row) (hour : String),
    (∀ r ∈ buffered, c.covers r = true) ∧
      (hour, batches.flatMap ColumnBatch.rows) ∈ prepareOrdered c buffered
  range : timeBounds (batches.flatMap ColumnBatch.rows) = (info.minTsNs, info.maxTsNs)

def CatalogFile.rows (f : CatalogFile) : List Row := f.batches.flatMap ColumnBatch.rows

/-- How a merge lays its rows out: the tag columns of the batch in their order,
and the one it clusters by. -/
structure Layout where
  clustering : List Row → Clustering
  covers : ∀ rows, ∀ r ∈ rows, (clustering rows).covers r = true

end Files

section Rewrite

inductive PassError where
  | restriction (path : String) (e : RestrictionError)
  | merge (path : String) (e : MergeError)

/-- What comes of a file: it stays, it goes, or another takes its place. -/
inductive Outcome where
  | untouched
  | dropped
  | replaced (merged : Merged)

def Outcome.rows (f : CatalogFile) : Outcome → List Row
  | untouched => f.rows
  | dropped => []
  | replaced merged => merged.rows

/-- The tombstones that may touch a file. -/
def touching (tombstones : List Tombstone) (f : FileMeta) : List Tombstone :=
  tombstones.filter fun t => t.db = f.db && t.table = f.table && tombstoneOverlapsFile t f

def filterBatches (deletes : List Tombstone) (batches : List (ColumnBatch Row)) :
    Except RestrictionError (List (List Row)) :=
  batches.mapM fun b => applyTombstone b deletes

/-- The body of the pass for one file. -/
def rewriteFile (layout : Layout) (tombstones : List Tombstone) (f : CatalogFile) :
    Except PassError Outcome :=
  let deletes := touching tombstones f.info
  if deletes = [] then .ok .untouched
  else
    match filterBatches deletes f.batches with
    | .error e => .error (.restriction f.info.path e)
    | .ok kept =>
        if kept.flatten.length = f.rows.length then .ok .untouched
        else if kept.flatten.length = 0 then .ok .dropped
        else
          match mergeFiles (layout.clustering kept.flatten) [kept.flatten] with
          | .error e => .error (.merge f.info.path e)
          | .ok merged => .ok (.replaced merged)

/-- What a query that reads all of a file gets of it: its session has every
tombstone of the table. -/
def queryFile (tombstones : List Tombstone) (f : CatalogFile) :
    Except RestrictionError (List Row) :=
  (filterBatches (tombstones.filter fun t => t.db = f.info.db && t.table = f.info.table)
    f.batches).map List.flatten

end Rewrite

section Range

theorem foldl_min_le (rows : List Row) (lo : Int) :
    rows.foldl (fun lo r => min lo r.time) lo ≤ lo ∧
      ∀ r ∈ rows, rows.foldl (fun lo r => min lo r.time) lo ≤ r.time := by
  induction rows generalizing lo with
  | nil => exact ⟨le_refl _, fun _ h => by cases h⟩
  | cons r rows ih =>
      obtain ⟨hlo, hrows⟩ := ih (min lo r.time)
      rw [List.foldl_cons]
      refine ⟨hlo.trans (min_le_left _ _), fun x hx => ?_⟩
      rcases List.mem_cons.mp hx with rfl | hx
      · exact hlo.trans (min_le_right _ _)
      · exact hrows x hx

theorem le_foldl_max (rows : List Row) (hi : Int) :
    hi ≤ rows.foldl (fun hi r => max hi r.time) hi ∧
      ∀ r ∈ rows, r.time ≤ rows.foldl (fun hi r => max hi r.time) hi := by
  induction rows generalizing hi with
  | nil => exact ⟨le_refl _, fun _ h => by cases h⟩
  | cons r rows ih =>
      obtain ⟨hhi, hrows⟩ := ih (max hi r.time)
      rw [List.foldl_cons]
      refine ⟨(le_max_left _ _).trans hhi, fun x hx => ?_⟩
      rcases List.mem_cons.mp hx with rfl | hx
      · exact (le_max_right _ _).trans hhi
      · exact hrows x hx

variable (f : CatalogFile)

/-- The range a file is catalogued with has the times of its rows, and neither end
lies outside `i64`. -/
theorem CatalogFile.range_spec :
    f.info.minTsNs ≤ 2 ^ 63 - 1 ∧ -2 ^ 63 ≤ f.info.maxTsNs ∧
      ∀ r ∈ f.rows, f.info.minTsNs ≤ r.time ∧ r.time ≤ f.info.maxTsNs := by
  obtain ⟨hmin, hmax⟩ := Prod.mk.inj f.range
  obtain ⟨hlo, hlos⟩ := foldl_min_le f.rows (2 ^ 63 - 1)
  obtain ⟨hhi, hhis⟩ := le_foldl_max f.rows (-2 ^ 63)
  rw [← hmin, ← hmax]
  exact ⟨hlo, hhi, fun r hr => ⟨hlos r hr, hhis r hr⟩⟩

variable {f} {b : ColumnBatch Row}

theorem HoldsRows.timeAt (h : HoldsRows b) (i : Nat) : b.timeAt i = (b.rows[i]?).map Row.time := by
  rw [ColumnBatch.timeAt, h.time, Option.bind_some, ColumnArray.time, List.getElem?_map]
  cases b.rows[i]? <;> rfl

theorem HoldsRows.timed (h : HoldsRows b) : b.Timed := by
  intro a ha _ i hi
  rw [h.time] at ha
  obtain rfl := Option.some.inj ha
  simp [ColumnArray.time, List.getElem?_eq_getElem hi]

/-- A tombstone that matches a row of a file may touch the file. -/
theorem overlaps_of_matches (hb : b ∈ f.batches) {t : Tombstone} {i : Nat}
    (hi : i < b.rows.length) (h : b.Matches t i = true) :
    tombstoneOverlapsFile t f.info = true := by
  obtain ⟨hmin, hmax, htimes⟩ := f.range_spec
  have hr : b.rows[i] ∈ f.rows :=
    List.mem_flatMap.mpr ⟨b, hb, List.getElem_mem hi⟩
  obtain ⟨hlo, hhi⟩ := htimes _ hr
  have hbounds : isBounded t = true → withinBounds t b.rows[i].time = true := by
    intro hbounded
    rw [ColumnBatch.Matches, hbounded, (f.holds b hb).timeAt, List.getElem?_eq_getElem hi] at h
    simpa using (Bool.and_eq_true _ _ ▸ h).2
  rw [tombstoneOverlapsFile, Bool.and_eq_true, decide_eq_true_eq, decide_eq_true_eq]
  constructor
  · cases hlow : t.minTsNs with
    | none => simpa using hmax
    | some lo =>
        have hwithin := hbounds (by rw [isBounded, hlow]; rfl)
        rw [withinBounds, hlow, Option.all_some, Bool.and_eq_true, decide_eq_true_eq] at hwithin
        exact hwithin.1.trans hhi
  · cases hhigh : t.maxTsNs with
    | none => simpa using hmin
    | some hi' =>
        have hwithin := hbounds (by rw [isBounded, hhigh, Option.isSome_some, Bool.or_true])
        rw [withinBounds, hhigh, Option.all_some, Bool.and_eq_true, decide_eq_true_eq] at hwithin
        exact hlo.trans hwithin.2

end Range

section Merge

variable {c : Clustering} {rows : List Row}

/-- Rows of one hour with different primary keys come out of a merge of one as
they went in, but for their order. -/
theorem mergeFiles_single (hcov : ∀ r ∈ rows, c.covers r = true) (hne : rows ≠ [])
    (hnodup : (rows.map Row.key).Nodup) {hour : String} (hhour : ∀ r ∈ rows, r.hour = hour) :
    ∃ merged, mergeFiles c [rows] = .ok merged ∧ merged.rows.Perm rows := by
  have hflatten : [rows].flatten = rows := by simp
  have hkept : ∀ r ∈ sortKeepLast (Row.pk c) rows, r.hour = hour :=
    fun r hr => hhour r (mem_of_mem_sortKeepLast hr)
  have hlength : (sortKeepLast (Row.pk c) rows).length ≠ 0 := by
    intro hzero
    obtain ⟨r, hr⟩ := List.exists_mem_of_ne_nil rows hne
    have hlast := (kept_spec hcov).2.2 r.key
    rw [lastOf_of_mem hnodup hr, List.length_eq_zero_iff.mp hzero] at hlast
    cases hlast
  have hhours : ((sortKeepLast (Row.pk c) rows).map Row.hour).dedup = [hour] := by
    rw [List.map_congr_left hkept, List.map_const', List.replicate_dedup hlength]
  have hparts : prepareOrdered c rows = [(hour, sortKeepLast (Row.pk c) rows)] := by
    simp only [prepareOrdered, hhours, List.insertionSort_cons, List.insertionSort_nil,
      List.orderedInsert_nil, List.map_cons, List.map_nil]
    rw [List.filter_eq_self.mpr]
    simpa using hkept
  have hmerge : mergeFiles c [rows] = .ok ⟨sortKeepLast (Row.pk c) rows,
      (timeBounds (sortKeepLast (Row.pk c) rows)).1,
      (timeBounds (sortKeepLast (Row.pk c) rows)).2⟩ := by
    rw [mergeFiles, hflatten, if_neg hne, hparts]
  refine ⟨_, hmerge, ?_⟩
  exact perm_of_lastOf (kept_spec hcov).1 hnodup (kept_spec hcov).2.2

end Merge

section Rewrite

variable {tombstones deletes : List Tombstone} {f : CatalogFile}

/-- What the filter leaves of some batches. -/
def unmatchedRows (deletes : List Tombstone) (batches : List (ColumnBatch Row)) : List Row :=
  batches.flatMap fun b => b.unmatched deletes

/-- Every tombstone can be read on every batch that has rows. -/
def Readable (deletes : List Tombstone) (batches : List (ColumnBatch Row)) : Prop :=
  ∀ b ∈ batches, b.rows = [] ∨ ∀ t ∈ deletes, b.readable t.tagEquals = true

theorem filterBatches_eq {batches : List (ColumnBatch Row)}
    (hholds : ∀ b ∈ batches, HoldsRows b) (hread : Readable deletes batches) :
    filterBatches deletes batches = .ok (batches.map fun b => b.unmatched deletes) := by
  rw [filterBatches, mapM_eq_ok, List.forall₂_map_right_iff, List.forall₂_same]
  intro b hb
  have hnull : ∀ t ∈ deletes, b.Timed ∨ excludesNull t := fun _ _ => .inl (hholds b hb).timed
  have happly := applyTombstone_eq b hnull
  rwa [if_pos (hread b hb)] at happly

theorem readable_of_filterBatches {batches : List (ColumnBatch Row)} {kept : List (List Row)}
    (hholds : ∀ b ∈ batches, HoldsRows b) (h : filterBatches deletes batches = .ok kept) :
    Readable deletes batches := by
  intro b hb
  have hnull : ∀ t ∈ deletes, b.Timed ∨ excludesNull t := fun _ _ => .inl (hholds b hb).timed
  have happly := applyTombstone_eq b hnull
  by_contra hunread
  rw [if_neg hunread] at happly
  obtain ⟨e, he⟩ := happly
  obtain ⟨rows, hrows⟩ := exists_of_mapM_eq_ok h hb
  rw [he] at hrows
  cases hrows

theorem unmatched_sublist {α : Type} (b : ColumnBatch α) (deletes : List Tombstone) :
    (b.unmatched deletes).Sublist b.rows := by
  have hsub := (List.filter_sublist (p := fun p : α × Nat => !deletes.any fun t => b.Matches t p.2)
    (l := b.rows.zipIdx)).map Prod.fst
  rwa [List.zipIdx_map_fst] at hsub

theorem unmatchedRows_sublist (deletes : List Tombstone) (batches : List (ColumnBatch Row)) :
    (unmatchedRows deletes batches).Sublist (batches.flatMap ColumnBatch.rows) := by
  induction batches with
  | nil => exact List.Sublist.refl _
  | cons b batches ih => exact (unmatched_sublist b deletes).append ih

/-- Leaving out the tombstones that cannot touch a file changes nothing of it. -/
theorem unmatchedRows_touching (tombstones : List Tombstone) (f : CatalogFile) :
    unmatchedRows (touching tombstones f.info) f.batches =
      unmatchedRows (tombstones.filter fun t => t.db = f.info.db && t.table = f.info.table)
        f.batches := by
  apply List.flatMap_congr
  intro b hb
  rw [ColumnBatch.unmatched, ColumnBatch.unmatched]
  congr 1
  apply List.filter_congr
  rintro ⟨r, i⟩ hp
  have hi : i < b.rows.length := (List.mem_zipIdx' hp).1
  congr 1
  rw [Bool.eq_iff_iff, List.any_eq_true, List.any_eq_true]
  constructor
  · rintro ⟨t, ht, hmatches⟩
    obtain ⟨hmem, hkey⟩ := List.mem_filter.mp ht
    simp only [Bool.and_eq_true] at hkey
    exact ⟨t, List.mem_filter.mpr ⟨hmem, by simpa using hkey.1⟩, hmatches⟩
  · rintro ⟨t, ht, hmatches⟩
    obtain ⟨hmem, hkey⟩ := List.mem_filter.mp ht
    refine ⟨t, List.mem_filter.mpr ⟨hmem, ?_⟩, hmatches⟩
    rw [hkey, overlaps_of_matches hb hi hmatches, Bool.true_and]

theorem touching_subset (tombstones : List Tombstone) (f : FileMeta) :
    touching tombstones f ⊆ tombstones.filter fun t => t.db = f.db && t.table = f.table := by
  intro t ht
  obtain ⟨hmem, hkey⟩ := List.mem_filter.mp ht
  simp only [Bool.and_eq_true] at hkey
  exact List.mem_filter.mpr ⟨hmem, by simpa using hkey.1⟩

/-- The body of the pass on a file whose tombstones can be read: it leaves the rows
no tombstone matches. -/
theorem rewriteFile_eq (layout : Layout) (hread : Readable (touching tombstones f.info) f.batches) :
    ∃ o, rewriteFile layout tombstones f = .ok o ∧
      (o.rows f).Perm (unmatchedRows (touching tombstones f.info) f.batches) := by
  have hsub := unmatchedRows_sublist (touching tombstones f.info) f.batches
  have hfilter := filterBatches_eq f.holds hread
  have hflatten : ((f.batches.map fun b => b.unmatched (touching tombstones f.info))).flatten =
      unmatchedRows (touching tombstones f.info) f.batches := rfl
  rw [rewriteFile]
  by_cases hnone : touching tombstones f.info = []
  · refine ⟨.untouched, if_pos hnone, ?_⟩
    have hall : ∀ b : ColumnBatch Row, b.unmatched [] = b.rows := by
      intro b
      simp [ColumnBatch.unmatched, List.zipIdx_map_fst]
    rw [hnone, unmatchedRows]
    simp only [hall]
    exact List.Perm.refl _
  · simp only [if_neg hnone, hfilter, hflatten]
    by_cases hsame : (unmatchedRows (touching tombstones f.info) f.batches).length = f.rows.length
    · rw [if_pos hsame]
      exact ⟨.untouched, rfl, .of_eq (hsub.eq_of_length hsame).symm⟩
    · rw [if_neg hsame]
      by_cases hempty : (unmatchedRows (touching tombstones f.info) f.batches).length = 0
      · rw [if_pos hempty]
        refine ⟨.dropped, rfl, ?_⟩
        rw [List.length_eq_zero_iff.mp hempty]
        exact List.Perm.refl _
      · rw [if_neg hempty]
        obtain ⟨c, buffered, hour, hcov, hpiece⟩ := f.written
        have hof := prepareOrdered_piece hcov hpiece
        obtain ⟨merged, hmerge, hperm⟩ := mergeFiles_single
          (layout.covers (unmatchedRows (touching tombstones f.info) f.batches))
          (fun h => hempty (by rw [h]; rfl)) (hof.nodup.sublist (hsub.map Row.key))
          fun r hr => hof.inHour r (hsub.subset hr)
        rw [hmerge]
        exact ⟨.replaced merged, rfl, hperm⟩

end Rewrite

section Rows

variable {b : ColumnBatch Row}

/-- On rows the filter of the arrays is the filter of the cluster's files. -/
theorem HoldsRows.matches_eq (h : HoldsRows b) (t : Tombstone) {i : Nat} {r : Row}
    (hr : b.rows[i]? = some r) : b.Matches t i = matchesTombstone t r := by
  have htags : (t.tagEquals.all fun p => decide (b.textAt p.1 i = some p.2)) =
      t.tagEquals.all fun p => textCell r p.1 == some p.2 := by
    congr 1
    funext p
    rw [h.cells p.1 i r hr, Bool.eq_iff_iff, decide_eq_true_eq, beq_iff_eq]
  rw [ColumnBatch.Matches, matchesTombstone, htags, h.timeAt, hr, Option.map_some, Option.any_some,
    Bool.and_assoc]
  congr 1
  rw [isBounded, withinBounds]
  cases t.minTsNs <;> cases t.maxTsNs <;> simp

theorem HoldsRows.unmatched_eq (h : HoldsRows b) (deletes : List Tombstone) :
    b.unmatched deletes = applyTombstones deletes b.rows := by
  have hfilter : b.rows.zipIdx.filter (fun p => !deletes.any fun t => b.Matches t p.2) =
      b.rows.zipIdx.filter ((fun r => !deletes.any fun t => matchesTombstone t r) ∘ Prod.fst) := by
    apply List.filter_congr
    rintro ⟨r, i⟩ hp
    obtain ⟨hi, hr⟩ := List.mem_zipIdx' hp
    have hget : b.rows[i]? = some r := by rw [hr, List.getElem?_eq_getElem hi]
    simp only [Function.comp, h.matches_eq _ hget]
  rw [ColumnBatch.unmatched, hfilter, ← List.filter_map, List.zipIdx_map_fst, applyTombstones]

end Rows

section Exact

/-- The filter keeps, in their order, exactly the rows no tombstone matches; it
fails, and keeps nothing, when a tombstone is on a column without strings. A
tombstone that matches a row of a file overlaps the file. So a rewrite leaves in
the file's place exactly the rows a query of the file still returns. -/
theorem deletes_exact :
    (∀ (α : Type) (b : ColumnBatch α) (deletes : List Tombstone),
      (∀ t ∈ deletes, b.Timed ∨ excludesNull t) →
        if b.rows = [] ∨ ∀ t ∈ deletes, b.readable t.tagEquals = true then
          applyTombstone b deletes = .ok (b.unmatched deletes)
        else ∃ e, applyTombstone b deletes = .error e) ∧
    (∀ (f : CatalogFile) (t : Tombstone),
      (∃ b ∈ f.batches, ∃ i < b.rows.length, b.Matches t i = true) →
        tombstoneOverlapsFile t f.info = true) ∧
    ∀ (layout : Layout) (tombstones : List Tombstone) (f : CatalogFile) (live : List Row),
      queryFile tombstones f = .ok live →
        ∃ o, rewriteFile layout tombstones f = .ok o ∧ (o.rows f).Perm live := by
  refine ⟨fun α b deletes hnull => applyTombstone_eq b hnull, ?_, ?_⟩
  · rintro f t ⟨b, hb, i, hi, hmatches⟩
    exact overlaps_of_matches hb hi hmatches
  · intro layout tombstones f live hquery
    rw [queryFile] at hquery
    cases hkept : filterBatches
        (tombstones.filter fun t => t.db = f.info.db && t.table = f.info.table) f.batches with
    | error e =>
        rw [hkept] at hquery
        cases hquery
    | ok kept =>
        have hread := readable_of_filterBatches f.holds hkept
        have hall := filterBatches_eq f.holds hread
        rw [hall] at hquery
        obtain rfl := Except.ok.inj hquery
        have hread' : Readable (touching tombstones f.info) f.batches :=
          fun b hb => (hread b hb).imp_right fun h t ht => h t (touching_subset _ _ ht)
        obtain ⟨o, ho, hperm⟩ := rewriteFile_eq layout hread'
        rw [unmatchedRows_touching] at hperm
        exact ⟨o, ho, hperm⟩

/-- A batch with a tag, and one with a number in the same place. -/
def hostBatch : ColumnBatch Nat where
  rows := [0, 1]
  columns := [("host", .strings (.utf8 [some "a", some "b"]) rfl)]
  aligned := by simp [ColumnArray.length, LabelArray.labels]

def numberBatch : ColumnBatch Nat where
  rows := [0]
  columns := [("host", .ints [some 1])]
  aligned := by simp [ColumnArray.length]

def deleteHost : Tombstone := ⟨"d", "db", "t", [("host", "a")], none, none, 0⟩

theorem deleteHost_exact :
    applyTombstone hostBatch [deleteHost] = .ok (hostBatch.unmatched [deleteHost]) := by
  have hexact := deletes_exact.1 Nat hostBatch [deleteHost] fun t ht => by
    obtain rfl := List.mem_singleton.mp ht
    exact .inr fun h => by cases h
  rwa [if_pos (.inr (by decide +kernel))] at hexact

example : hostBatch.unmatched [deleteHost] = [1] := by decide +kernel

/-- A null time reads as `i64::MIN`, which an open start lets in. -/
example : applyTombstone ⟨[0], [("time", .timestamps [none])], by simp [ColumnArray.length]⟩
    [⟨"d", "db", "t", [], none, some 5, 0⟩] = .ok [] := by decide +kernel

/-- On a column without strings nothing matches, and the batch is refused. -/
theorem number_refused : numberBatch.unmatched [deleteHost] = [0] ∧
    applyTombstone numberBatch [deleteHost] = .error (.tagNotString .int64) :=
  ⟨by decide +kernel, by decide +kernel⟩

end Exact

end TimeLake.Deletes
