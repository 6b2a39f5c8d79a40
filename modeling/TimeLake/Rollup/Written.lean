import TimeLake.Rollup.Machine

/-!
What a pass writes is what its groups stand for, when the texts of the result come
back from line protocol: a row for each group that has an aggregate the format can
carry, in the target and with the tags of the group. Elsewhere the parser makes
another row of the line, or refuses it.
-/

namespace TimeLake.Rollup

open TimeLake.Admin
open TimeLake.Catalog
open TimeLake.Cluster
open TimeLake.Ingest
open TimeLake.Library
open TimeLake.Rows
open TimeLake.Rollup.Lines

variable {sql : Sql} {d : RollupDef}

section Meaning

/-- The aggregates of a group that line protocol can carry. -/
def groupFields (sql : Sql) (d : RollupDef) (rows : List Point) : List (String × FieldValue) :=
  d.aggregations.filterMap fun a =>
    ((sql.aggregate a rows).filter isFiniteField).map fun v => (a.targetColumn, v)

/-- The row of one group; without a field there is none. -/
def groupPoint (sql : Sql) (d : RollupDef) (key : Int × TagSet) (rows : List Point) :
    Option Point :=
  let fields := groupFields sql d rows
  if fields.isEmpty then none else some ⟨key.1, key.2, fields⟩

/-- The rows a pass over a definition should add. -/
def rolledUp (sql : Sql) (d : RollupDef) (now : Int) (source target : List Point) : List Point :=
  (groups sql d now source target).filterMap fun g => groupPoint sql d g.1 g.2

def State.pending (sql : Sql) (s : State) (d : RollupDef) (now : Int) : List Point :=
  rolledUp sql d now (s.tables (sourceKey d)) (s.tables (targetKey d))

def State.resultLines (sql : Sql) (s : State) (d : RollupDef) (now : Int) : List ParsedLine :=
  resultRows sql.render d.target (s.tags d) (s.batches sql d now)

/-- The columns of the result have names of their own, and each row comes back from
its line. -/
structure Legible (sql : Sql) (s : State) (d : RollupDef) (now : Int) : Prop where
  columns : ("time" :: s.tags d ++ d.aggregations.map RollupAgg.targetColumn).Nodup
  rows : ∀ row ∈ s.resultLines sql d now, intact row = true

instance (sql : Sql) (s : State) (d : RollupDef) (now : Int) : Decidable (Legible sql s d now) :=
  decidable_of_iff (("time" :: s.tags d ++ d.aggregations.map RollupAgg.targetColumn).Nodup ∧
    ∀ row ∈ s.resultLines sql d now, intact row = true)
    ⟨fun h => ⟨h.1, h.2⟩, fun h => ⟨h.columns, h.rows⟩⟩

/-- A row as the line it is written on, its tags in the order of the columns. -/
def Point.line (target : String) (tags : List String) (p : Point) : ParsedLine :=
  ⟨target, tags.filterMap fun t => (p.tags.get t).map fun v => (t, v), p.fields, p.time⟩

end Meaning

@[simp]
theorem addRows_self (tables : TableKey → List Point) (key : TableKey) (rows : List Point) :
    addRows tables key rows key = tables key ++ rows := by simp [addRows]

theorem addRows_ne (tables : TableKey → List Point) {key k : TableKey} (h : k ≠ key)
    (rows : List Point) : addRows tables key rows k = tables k := by simp [addRows, h]

theorem groupPoint_eq_some {key : Int × TagSet} {rows : List Point} {p : Point}
    (h : groupPoint sql d key rows = some p) :
    p.time = key.1 ∧ p.tags = key.2 ∧ p.fields = groupFields sql d rows := by
  unfold groupPoint at h
  dsimp only at h
  split at h
  · cases h
  · obtain rfl := Option.some.inj h
    exact ⟨rfl, rfl, rfl⟩

section Columns

theorem columnOf_cell (v : Option FieldValue) : (columnOf v).cell 0 = v.map cellOf := by
  rcases v with _ | (_ | _ | _ | _ | _) <;> rfl

theorem fieldValue_cellOf (render : Cell → String) (v : FieldValue) :
    fieldValue render (cellOf v) = (some v).filter isFiniteField := by
  cases v with
  | float bits =>
      rw [cellOf, fieldValue, Option.filter_some]
      rfl
  | int | uint | bool | str => rfl

/-- A column that stands behind the time is not taken for it. -/
theorem filterMap_zipIdx {α β : Type} {f : α × Nat → Option β} {g : α → Option β} {n : Nat}
    (hfg : ∀ a i, n ≤ i → f (a, i) = g a) (l : List α) :
    (l.zipIdx n).filterMap f = l.filterMap g := by
  induction l generalizing n with
  | nil => rfl
  | cons a l ih =>
      rw [List.zipIdx_cons, List.filterMap_cons, List.filterMap_cons, hfg a n (Nat.le_refl n),
        ih fun b i hi => hfg b i (Nat.le_of_succ_le hi)]

variable {tags : List String} {key : Int × TagSet} {rows : List Point}

theorem timeColumn_groupBatch :
    timeColumn (groupBatch sql d tags key rows) = .ok (0, [some (.ofInt key.1)]) := rfl

/-- The cells beside the time, which of them are tags decided by name. -/
theorem cellsOf_groupBatch (isTag : Bool) :
    cellsOf tags (groupBatch sql d tags key rows) 0 0 isTag =
      (tags.filterMap fun t => if tags.contains t ≠ isTag then none
        else (key.2.get t).map fun v => (t, .text v)) ++
      d.aggregations.filterMap fun a => if tags.contains a.targetColumn ≠ isTag then none
        else (sql.aggregate a rows).map fun v => (a.targetColumn, cellOf v) := by
  have hrest : cellsOf tags (groupBatch sql d tags key rows) 0 0 isTag =
      ((tags.map fun t => (t, Column.texts [key.2.get t])) ++
        d.aggregations.map fun a => (a.targetColumn, columnOf (sql.aggregate a rows))).filterMap
          fun p => if tags.contains p.1 ≠ isTag then none
            else (p.2.cell 0).map fun c => (p.1, c) := by
    simp only [cellsOf, groupBatch, groupColumns, List.cons_append, List.zipIdx_cons]
    rw [List.filterMap_cons_none (by simp)]
    refine filterMap_zipIdx (fun p i hi => ?_) _
    have hne : i ≠ 0 := by omega
    simp [hne]
  rw [hrest, List.filterMap_append, List.filterMap_map, List.filterMap_map]
  congr 1
  · refine List.filterMap_congr fun t _ => ?_
    cases hget : key.2.get t <;> simp [Column.cell, hget]
  · refine List.filterMap_congr fun a _ => ?_
    simp only [Function.comp_apply, columnOf_cell, Option.map_map]
    rfl

variable (hnames : ∀ a ∈ d.aggregations, a.targetColumn ∉ tags)

include hnames

theorem tagCells_groupBatch :
    cellsOf tags (groupBatch sql d tags key rows) 0 0 true =
      tags.filterMap fun t => (key.2.get t).map fun v => (t, .text v) := by
  have hfields : (d.aggregations.filterMap fun a => if tags.contains a.targetColumn ≠ true then none
      else (sql.aggregate a rows).map fun v => (a.targetColumn, cellOf v)) = [] := by
    rw [List.filterMap_eq_nil_iff]
    intro a ha
    simp [hnames a ha]
  rw [cellsOf_groupBatch, hfields, List.append_nil]
  refine List.filterMap_congr fun t ht => ?_
  simp [ht]

theorem fieldCells_groupBatch :
    cellsOf tags (groupBatch sql d tags key rows) 0 0 false =
      d.aggregations.filterMap fun a =>
        (sql.aggregate a rows).map fun v => (a.targetColumn, cellOf v) := by
  have htags : (tags.filterMap fun t => if tags.contains t ≠ false then none
      else (key.2.get t).map fun v => (t, Cell.text v)) = [] := by
    rw [List.filterMap_eq_nil_iff]
    intro t ht
    simp [ht]
  rw [cellsOf_groupBatch, htags, List.nil_append]
  refine List.filterMap_congr fun a ha => ?_
  simp [hnames a ha]

/-- The batch of a group holds the row of the group, if there is one. -/
theorem batchRows_groupBatch (hkey : IsI64 key.1) :
    batchRows sql.render d.target tags (groupBatch sql d tags key rows) =
      ((groupPoint sql d key rows).map (Point.line d.target tags)).toList := by
  have hfields : ((cellsOf tags (groupBatch sql d tags key rows) 0 0 false).filterMap fun p =>
      (fieldValue sql.render p.2).map fun v => (p.1, v)) = groupFields sql d rows := by
    rw [fieldCells_groupBatch hnames, List.filterMap_filterMap, groupFields]
    refine List.filterMap_congr fun a _ => ?_
    cases sql.aggregate a rows with
    | none => rfl
    | some v => simp [fieldValue_cellOf]
  have htags : ((cellsOf tags (groupBatch sql d tags key rows) 0 0 true).map fun p =>
      (p.1, cellText sql.render p.2)) =
          tags.filterMap fun t => (key.2.get t).map fun v => (t, v) := by
    rw [tagCells_groupBatch hnames, List.map_filterMap]
    refine List.filterMap_congr fun t _ => ?_
    cases key.2.get t <;> rfl
  have htime : (Int64.ofInt key.1).toInt = key.1 := Int64.toInt_ofInt_of_le hkey.1 hkey.2
  rw [batchRows, timeColumn_groupBatch]
  change ([0] : List Nat).filterMap _ = _
  rw [List.filterMap_cons, List.filterMap_nil]
  simp only [List.getElem?_cons_zero, Option.join_some, resultRow, Option.bind_some, hfields, htags,
    htime, groupPoint]
  cases hfields : groupFields sql d rows with
  | nil => rfl
  | cons p fields => rfl

end Columns

section Result

variable {s : State} {now : Int}

theorem groupTags_covered {source : List Point} {p : Point} {name : String}
    (h : ((groupTags sql d source p).get name).isSome) : name ∈ passTags d source := by
  obtain ⟨value, hvalue⟩ := Option.isSome_iff_exists.mp h
  unfold groupTags at hvalue
  unfold passTags
  split at hvalue
  · next hall =>
      rw [if_pos hall]
      rw [TagSet.get_eq_some, restrictTags] at hvalue
      simpa using (List.mem_filter.mp hvalue).2
  · next hsome =>
      rw [if_neg hsome]
      rw [TagSet.get_eq_some] at hvalue
      obtain ⟨c, hc, hcell⟩ := List.mem_filterMap.mp (mem_of_mem_collect hvalue)
      obtain ⟨v, _, hpair⟩ := Option.map_eq_some_iff.mp hcell
      obtain ⟨rfl, _⟩ := Prod.mk.inj hpair
      exact hc

theorem mem_groups {source target : List Point} {g : (Int × TagSet) × List Point}
    (hg : g ∈ groups sql d now source target) : ∃ p, g.1 = groupKey sql d source p := by
  unfold groups at hg
  dsimp only at hg
  split at hg
  · cases hg
  · obtain ⟨key, hkey, rfl⟩ := List.mem_map.mp hg
    obtain ⟨p, _, rfl⟩ := List.mem_map.mp (List.mem_dedup.mp hkey)
    exact ⟨p, rfl⟩

theorem pending_cases {p : Point} (hp : p ∈ s.pending sql d now) :
    ∃ g ∈ s.groups sql d now, p.time = g.1.1 ∧ p.tags = g.1.2 := by
  obtain ⟨g, hg, hpoint⟩ := List.mem_filterMap.mp hp
  obtain ⟨htime, htags, _⟩ := groupPoint_eq_some hpoint
  exact ⟨g, hg, htime, htags⟩

theorem pending_times (hgroups : ∀ g ∈ s.groups sql d now, IsI64 g.1.1) :
    ∀ p ∈ s.pending sql d now, IsI64 p.time := by
  intro p hp
  obtain ⟨g, hg, htime, _⟩ := pending_cases hp
  rw [htime]
  exact hgroups g hg

/-- A row is the same under any order of its tags. -/
theorem ofLine_line {p : Point} {target : String} {tags : List String} (hnodup : tags.Nodup)
    (hcovered : ∀ name, (p.tags.get name).isSome → name ∈ tags) :
    Point.ofLine (p.line target tags) = p := by
  have hkeys : ((p.line target tags).tags.map Prod.fst).Nodup := by
    have hfilter : (p.line target tags).tags.map Prod.fst =
        tags.filter fun t => (p.tags.get t).isSome := by
      rw [Point.line, List.map_filterMap, ← List.filterMap_eq_filter]
      refine List.filterMap_congr fun t _ => ?_
      cases hget : p.tags.get t <;> simp [Option.guard, hget]
    rw [hfilter]
    exact hnodup.filter _
  have htags : tagSet (p.line target tags).tags = p.tags := by
    refine TagSet.ext_get fun name => Option.ext fun value => ?_
    rw [TagSet.get_eq_some, tagSet, (perm_collect hkeys).mem_iff, Point.line, List.mem_filterMap]
    constructor
    · rintro ⟨t, _, ht⟩
      obtain ⟨v, hv, hpair⟩ := Option.map_eq_some_iff.mp ht
      obtain ⟨rfl, rfl⟩ := Prod.mk.inj hpair
      exact hv
    · intro hget
      exact ⟨name, hcovered name (by rw [hget]; rfl), by rw [hget]; rfl⟩
  rw [Point.ofLine, htags]
  rfl

theorem resultLines_eq (hgroups : ∀ g ∈ s.groups sql d now, IsI64 g.1.1)
    (hread : Legible sql s d now) :
    s.resultLines sql d now = (s.pending sql d now).map (Point.line d.target (s.tags d)) := by
  have hnames : ∀ a ∈ d.aggregations, a.targetColumn ∉ s.tags d := by
    intro a ha htag
    exact (List.nodup_append.mp hread.columns).2.2 _ (.tail _ htag) _ (List.mem_map_of_mem ha) rfl
  unfold State.resultLines resultRows State.batches State.pending rolledUp
  rw [List.flatMap_map, List.map_filterMap, List.filterMap_eq_flatMap_toList]
  exact List.flatMap_congr fun g hg => batchRows_groupBatch hnames (hgroups g hg)

theorem written_eq (hvalid : d.validate = .ok ()) (hread : Legible sql s d now) :
    s.written sql d now = some (s.resultLines sql d now) := by
  have htime : ∀ b ∈ s.batches sql d now, ∃ p, timeColumn b = .ok p := by
    intro b hb
    obtain ⟨g, _, rfl⟩ := List.mem_map.mp hb
    exact ⟨_, timeColumn_groupBatch⟩
  have hback := (parseLines_rawText sql.inverse
    fun row (hrow : row ∈ s.resultLines sql d now) => (produced_of_resultRows hrow).2).mpr (by
      intro row hrow
      have htarget := target_ne_of_validate hvalid
      rw [← (produced_of_resultRows hrow).1] at htarget
      rw [comesBack_eq htarget]
      exact hread.rows row hrow)
  rw [State.written, batchesToLineProtocol_eq sql.display sql.render htime]
  change (parseLines _ _ 1 0).toOption = _
  rw [← State.resultLines, hback]
  rfl

/-- The parser gives the rows of the result, and all of them go to the target. -/
theorem addLines_written (hvalid : d.validate = .ok ())
    (hgroups : ∀ g ∈ s.groups sql d now, IsI64 g.1.1) (hread : Legible sql s d now)
    {lines : List ParsedLine} (hlines : s.written sql d now = some lines) :
    addLines s.tables d.db lines = addRows s.tables (targetKey d) (s.pending sql d now) := by
  obtain rfl : s.resultLines sql d now = lines :=
    Option.some.inj ((written_eq hvalid hread).symm.trans hlines)
  have hrows : (s.resultLines sql d now).map Point.ofLine = s.pending sql d now := by
    rw [resultLines_eq hgroups hread, List.map_map]
    refine (List.map_congr_left fun p hp => ?_).trans (List.map_id _)
    refine ofLine_line ((List.nodup_append.mp hread.columns).1.of_cons) fun name hname => ?_
    obtain ⟨g, hg, _, htags⟩ := pending_cases hp
    obtain ⟨r, hr⟩ := mem_groups hg
    rw [htags, hr] at hname
    exact groupTags_covered hname
  funext key
  rw [addLines]
  by_cases hkey : key = targetKey d
  · subst hkey
    have hall : ((s.resultLines sql d now).filter fun l => (d.db, l.table) = targetKey d) =
        s.resultLines sql d now := by
      refine List.filter_eq_self.mpr fun l hl => ?_
      simp [targetKey, (produced_of_resultRows hl).1]
    rw [hall, hrows, addRows_self]
  · have hnone : ((s.resultLines sql d now).filter fun l => (d.db, l.table) = key) = [] := by
      refine List.filter_eq_nil_iff.mpr fun l hl => ?_
      rw [(produced_of_resultRows hl).1]
      simpa [targetKey] using Ne.symm hkey
    rw [hnone, List.map_nil, List.append_nil, addRows_ne _ hkey]

end Result

end TimeLake.Rollup
