import TimeLake.Rollup.Written

/-!
Each bucket is written once. The watermark of a definition is the latest row of
its target, not a stored position, so what has to be shown is that whatever
lies between that row and the last horizon had nothing to write. One equation
per definition carries it: the target's rows of a bucket and group are the row
computed from the whole source when the bucket's end is at or before the last
horizon, and none otherwise.
-/

namespace TimeLake.Rollup

open TimeLake.Admin
open TimeLake.Catalog
open TimeLake.Cluster
open TimeLake.Ingest
open TimeLake.Library
open TimeLake.Query (isVisible visibilityColumn)
open TimeLake.Rows

variable {sql : Sql} {defs : List RollupDef} {d : RollupDef}

section Meaning

def stepNs (d : RollupDef) : Int := d.intervalSecs * nanos

def lookbackNs (d : RollupDef) : Int := d.lookbackSecs * nanos

/-- The bucket from `b` on ended at or before the horizon of the last pass. -/
def isSealed (d : RollupDef) (last : Option Int) (b : Int) : Bool :=
  last.any fun now => b + stepNs d + lookbackNs d ≤ now

def contributes (sql : Sql) (d : RollupDef) (p : Point) : Bool :=
  p.isPublic && d.filter.all fun f => sql.keeps f p

/-- The group of a row, which no other row has a say in. -/
def groupOf (sql : Sql) (d : RollupDef) (p : Point) : TagSet :=
  if d.groupBy.isEmpty then p.tags
  else tagSet (d.groupBy.filterMap fun c => (p.cell c).map fun v => (c, sql.text v))

def bucketRows (sql : Sql) (d : RollupDef) (b : Int) (g : TagSet) (source : List Point) :
    List Point :=
  source.filter fun p => contributes sql d p && bucket d p.time = b && groupOf sql d p = g

/-- The row a definition should have for a bucket and a group. -/
def rollupPoint (sql : Sql) (d : RollupDef) (b : Int) (g : TagSet) (source : List Point) :
    Option Point :=
  let rows := bucketRows sql d b g source
  if rows.isEmpty then none else groupPoint sql d (b, g) rows

/-- The rows a table holds for a bucket and a group. -/
def rowsAt (b : Int) (g : TagSet) (rows : List Point) : List Point :=
  rows.filter fun p => p.time = b && p.tags = g

end Meaning

theorem restrictTags_self {source : List Point} {p : Point} (hp : p ∈ source) :
    restrictTags (tagColumns source) p.tags = p.tags := by
  have hpairs : p.tags.pairs.filter (fun q => (tagColumns source).contains q.1) =
      p.tags.pairs := by
    apply List.filter_eq_self.mpr
    intro q hq
    rw [List.contains_iff_mem, tagColumns, List.mem_dedup, List.mem_flatMap]
    exact ⟨p, hp, List.mem_map_of_mem hq⟩
  cases htags : p.tags with
  | mk pairs sorted =>
      rw [htags] at hpairs
      simpa only [restrictTags, TagSet.mk.injEq] using hpairs

theorem groupTags_eq {source : List Point} {p : Point} (hp : p ∈ source) :
    groupTags sql d source p = groupOf sql d p := by
  unfold groupTags groupOf
  rw [restrictTags_self hp]

theorem mem_bucketRows {b : Int} {g : TagSet} {source : List Point} {p : Point} :
    p ∈ bucketRows sql d b g source ↔
      p ∈ source ∧ contributes sql d p ∧ bucket d p.time = b ∧ groupOf sql d p = g := by
  simp [bucketRows, and_assoc]

/-- A row there is for a bucket comes from a source row in it. -/
theorem rollupPoint_eq_some {b : Int} {g : TagSet} {source : List Point} {p : Point}
    (h : rollupPoint sql d b g source = some p) :
    (∃ r ∈ source, contributes sql d r ∧ bucket d r.time = b ∧ groupOf sql d r = g) ∧
      p.time = b ∧ p.tags = g ∧ ∃ rows, p.fields = groupFields sql d rows := by
  unfold rollupPoint at h
  dsimp only at h
  split at h
  · cases h
  · next hne =>
      obtain ⟨htime, htags, hfields⟩ := groupPoint_eq_some h
      have hex : ∃ r, r ∈ bucketRows sql d b g source :=
        List.exists_mem_of_ne_nil _ (by simpa using hne)
      obtain ⟨r, hr⟩ := hex
      obtain ⟨hmem, hrest⟩ := mem_bucketRows.mp hr
      exact ⟨⟨r, hmem, hrest⟩, htime, htags, _, hfields⟩

theorem rollupPoint_append {b : Int} {g : TagSet} {source new : List Point}
    (hnew : ∀ p ∈ new, bucket d p.time ≠ b) :
    rollupPoint sql d b g (source ++ new) = rollupPoint sql d b g source := by
  have hnil : bucketRows sql d b g new = [] := by
    apply List.filter_eq_nil_iff.mpr
    intro p hp
    simp [hnew p hp]
  have hrows : bucketRows sql d b g (source ++ new) = bucketRows sql d b g source := by
    unfold bucketRows at hnil ⊢
    rw [List.filter_append, hnil, List.append_nil]
  unfold rollupPoint
  rw [hrows]

section Window

/-- The buckets between two multiples of the interval. -/
def inWindow (lower : Option Int) (high b : Int) : Bool := (lower.all fun lo => lo ≤ b) && b < high

variable {lower : Option Int} {hi : Int} (hstep : 0 < stepNs d)
  (hlower : ∀ lo, lower = some lo → stepNs d ∣ lo) (hhi : stepNs d ∣ hi)

include hstep hlower hhi

theorem inWindow_bucket (time : Int) :
    inWindow lower hi (bucket d time) = inWindow lower hi time := by
  have hupper : bucket d time < hi ↔ time < hi := floorTo_lt_iff hstep hhi time
  cases lower with
  | none => simp [inWindow, hupper]
  | some lo =>
      have hle : lo ≤ bucket d time ↔ lo ≤ time := le_floorTo_iff hstep (hlower lo rfl) time
      simp [inWindow, hupper, hle]

theorem selects_eq (p : Point) :
    selects sql d lower hi p = (contributes sql d p && inWindow lower hi (bucket d p.time)) := by
  rw [inWindow_bucket hstep hlower hhi, selects, contributes, inWindow]
  cases p.isPublic <;> cases lower <;> simp [Bool.and_comm]

/-- The rows a pass selects for a group are all of its rows or none of them. -/
theorem selected_group {source : List Point} (b : Int) (g : TagSet) :
    (source.filter (selects sql d lower hi)).filter
        (fun p => groupKey sql d source p = (b, g)) =
      if inWindow lower hi b then bucketRows sql d b g source else [] := by
  rw [List.filter_filter]
  split
  · next hin =>
      apply List.filter_congr
      intro p hp
      rw [selects_eq hstep hlower hhi, groupKey, groupTags_eq hp]
      by_cases hb : bucket d p.time = b
      · simp [hb, hin, Bool.and_comm]
      · simp [hb]
  · next hout =>
      apply List.filter_eq_nil_iff.mpr
      intro p hp hmem
      rw [selects_eq hstep hlower hhi, groupKey] at hmem
      simp only [Bool.and_eq_true, decide_eq_true_eq, Prod.mk.injEq] at hmem
      obtain ⟨⟨hb, _⟩, _, hin⟩ := hmem
      exact hout (hb ▸ hin)

end Window

section Pass

/-- What a pass adds for a bucket and a group: the row it should have, when
the bucket is in the window. -/
theorem rowsAt_rolledUp {now : Int} {source target : List Point} (hstep : 0 < stepNs d)
    (hlower : ∀ m, targetWatermark target = some m → stepNs d ∣ wrap64 (m + intervalNs d))
    (hhi : stepNs d ∣ high d now) (b : Int) (g : TagSet) :
    rowsAt b g (rolledUp sql d now source target) =
      if inWindow ((targetWatermark target).map fun m => wrap64 (m + intervalNs d)) (high d now) b
      then (rollupPoint sql d b g source).toList else [] := by
  have hlower' : ∀ lo, (targetWatermark target).map (fun m => wrap64 (m + intervalNs d)) = some lo →
      stepNs d ∣ lo := by
    intro lo hlo
    obtain ⟨m, hm, rfl⟩ := Option.map_eq_some_iff.mp hlo
    exact hlower m hm
  unfold rolledUp groups
  dsimp only
  generalize (targetWatermark target).map (fun m => wrap64 (m + intervalNs d)) = lower at hlower' ⊢
  split
  · next hpast =>
      -- the code returns here, and indeed there is no bucket in the window
      have hout : inWindow lower (high d now) b = false := by
        obtain ⟨lo, rfl, hle⟩ := (Option.any_eq_true _ _).mp hpast
        simp only [decide_eq_true_eq] at hle
        simp only [inWindow, Option.all_some, Bool.and_eq_false_iff, decide_eq_false_iff_not]
        omega
      simp [rowsAt, hout]
  · set rows := source.filter (selects sql d lower (high d now)) with hrows
    have hgroup : rows.filter (fun p => groupKey sql d source p = (b, g)) =
        if inWindow lower (high d now) b then bucketRows sql d b g source else [] :=
      selected_group hstep hlower' hhi b g
    have hfilter : rowsAt b g = List.filter fun p : Point => (p.time, p.tags) = (b, g) := by
      funext l
      simp [rowsAt]
    have hkey : ∀ (k : Int × TagSet) (p : Point),
        groupPoint sql d k (rows.filter fun p => groupKey sql d source p = k) = some p →
          (p.time, p.tags) = k := by
      intro k p hp
      obtain ⟨htime, htags, _⟩ := groupPoint_eq_some hp
      rw [htime, htags]
    rw [hfilter, List.filterMap_map]
    change List.filter _ (List.filterMap (fun key => groupPoint sql d key
      (rows.filter fun p => groupKey sql d source p = key)) _) = _
    rw [filter_filterMap_key (List.nodup_dedup _) hkey (b, g), hgroup]
    have hmem : (b, g) ∈ (rows.map (groupKey sql d source)).dedup ↔
        (if inWindow lower (high d now) b then bucketRows sql d b g source else []) ≠ [] := by
      rw [List.mem_dedup, List.mem_map, ← hgroup, ne_eq, List.filter_eq_nil_iff]
      simp
    by_cases hin : inWindow lower (high d now) b
    · simp only [hin, if_true] at hmem ⊢
      unfold rollupPoint
      by_cases hnil : bucketRows sql d b g source = []
      · simp [hmem, hnil]
      · simp [hmem, hnil]
    · simp only [hin] at hmem ⊢
      simp [hmem]

end Pass

section Arithmetic

/-- The nanoseconds of a pass stay within 64 bits. -/
structure Representable (d : RollupDef) (now : Int) : Prop where
  lookback : lookbackNs d < 2 ^ 63
  window : -2 ^ 63 ≤ now - lookbackNs d - stepNs d

instance (d : RollupDef) (now : Int) : Decidable (Representable d now) :=
  decidable_of_iff (lookbackNs d < 2 ^ 63 ∧ -2 ^ 63 ≤ now - lookbackNs d - stepNs d)
    ⟨fun h => ⟨h.1, h.2⟩, fun h => ⟨h.lookback, h.window⟩⟩

theorem secsNs_eq {secs : Nat} (h : (secs : Int) * nanos < 2 ^ 63) :
    secsNs secs = secs * nanos := by
  unfold nanos at h
  have hsecs : wrap64 secs = secs := wrap64_eq ⟨by omega, by omega⟩
  unfold secsNs nanos
  rw [hsecs]
  exact wrap64_eq ⟨by omega, by omega⟩

theorem stepNs_pos (hvalid : d.validate = .ok ()) : 0 < stepNs d := by
  obtain ⟨_, hpos, _⟩ := RollupDef.validate_ok hvalid
  unfold stepNs nanos
  omega

theorem stepNs_le (hvalid : d.validate = .ok ()) : stepNs d ≤ lookbackNs d := by
  obtain ⟨_, _, hle⟩ := RollupDef.validate_ok hvalid
  unfold stepNs lookbackNs nanos
  omega

theorem intervalNs_eq {now : Int} (hvalid : d.validate = .ok ()) (hrep : Representable d now) :
    intervalNs d = stepNs d := by
  have hle := stepNs_le hvalid
  have hlt := hrep.lookback
  exact secsNs_eq (lt_of_le_of_lt hle hlt)

/-- Without overflow the window of a pass ends at the horizon, rounded down. -/
theorem high_eq {now : Int} (hvalid : d.validate = .ok ()) (hnow : IsI64 now)
    (hrep : Representable d now) : high d now = floorTo (stepNs d) (now - lookbackNs d) := by
  have hpos := stepNs_pos hvalid
  have hle := stepNs_le hvalid
  obtain ⟨hlookback, hwindow⟩ := hrep
  obtain ⟨hlo, hhi⟩ := hnow
  have hback : secsNs d.lookbackSecs = lookbackNs d := secsNs_eq hlookback
  have hhorizon : horizon d now = now - lookbackNs d := by
    rw [horizon, hback]
    exact saturate64_eq ⟨by omega, by omega⟩
  have hfloor := floorTo_le hpos (now - lookbackNs d)
  have hnext := lt_floorTo_add hpos (now - lookbackNs d)
  rw [high, hhorizon, intervalNs_eq hvalid ⟨hlookback, hwindow⟩]
  exact wrap64_eq ⟨by unfold floorTo at hnext; omega, by unfold floorTo at hfloor; omega⟩

end Arithmetic

section Public

theorem cell_of_groupBy {p : Point} {c v : String}
    (h : (tagSet (d.groupBy.filterMap fun c => (p.cell c).map fun v => (c, sql.text v))).get c =
      some v) : ∃ x, p.cell c = some x ∧ sql.text x = v := by
  unfold tagSet TagSet.get at h
  rw [lookup_collect] at h
  have hmem := mem_of_lookup h
  rw [List.mem_reverse, List.mem_filterMap] at hmem
  obtain ⟨c', _, hc⟩ := hmem
  obtain ⟨x, hx, heq⟩ := Option.map_eq_some_iff.mp hc
  obtain ⟨rfl, rfl⟩ := Prod.mk.inj heq
  exact ⟨x, hx, rfl⟩

/-- The group of a public row has no label or one that everybody sees. -/
theorem groupOf_label {p : Point} (hp : p.isPublic) {label : String}
    (h : (groupOf sql d p).get visibilityColumn = some label) : isVisible label [] := by
  unfold Point.isPublic at hp
  unfold groupOf at h
  split at h
  · have hcell : p.cell visibilityColumn = some (.str label) := by simp [Point.cell, h]
    simpa [hcell] using hp
  · obtain ⟨x, hx, rfl⟩ := cell_of_groupBy h
    rw [hx] at hp
    cases x with
    | str l => simpa [Sql.text, cellOf, Lines.cellText] using hp
    | float _ => simp at hp
    | int _ => simp at hp
    | uint _ => simp at hp
    | bool _ => simp at hp

theorem groupFields_lookup {rows : List Point} {name : String}
    (hname : ∀ a ∈ d.aggregations, a.targetColumn ≠ name) :
    (groupFields sql d rows).lookup name = none := by
  rw [List.lookup_eq_none_iff]
  intro q hq
  obtain ⟨a, ha, heq⟩ := List.mem_filterMap.mp hq
  obtain ⟨v, _, rfl⟩ := Option.map_eq_some_iff.mp heq
  simpa using (hname a ha).symm

/-- The watermark query sees every row a pass wrote. -/
theorem isPublic_rollupPoint {b : Int} {g : TagSet} {source : List Point} {p : Point}
    (hlabel : ∀ a ∈ d.aggregations, a.targetColumn ≠ visibilityColumn)
    (h : rollupPoint sql d b g source = some p) : p.isPublic := by
  obtain ⟨⟨r, _, hr, _, hgroup⟩, _, htags, rows, hfields⟩ := rollupPoint_eq_some h
  have hpublic : r.isPublic := by
    simp only [contributes, Bool.and_eq_true] at hr
    exact hr.1
  unfold Point.isPublic Point.cell
  rw [htags, hfields, groupFields_lookup hlabel]
  cases hget : g.get visibilityColumn with
  | none => rfl
  | some label => exact groupOf_label hpublic (hgroup ▸ hget)

end Public

section Runs

/-- A row that reaches the source of a definition while its bucket is open. -/
def OnTime (d : RollupDef) (last : Option Int) (p : Point) : Prop :=
  isSealed d last (bucket d p.time) = false

/-- Rows on time for every definition that reads the table they go to. -/
def AllOnTime (defs : List RollupDef) (s : State) (key : TableKey) (rows : List Point) : Prop :=
  ∀ q ∈ defs.zipIdx, sourceKey q.1 = key → ∀ p ∈ rows, OnTime q.1 (s.passes q.2) p

/-- Rows on time, whoever writes them. -/
def Timely (sql : Sql) (defs : List RollupDef) (s : State) : Action → Prop
  | .arrive key p => AllOnTime defs s key [p]
  | .materializeOne i now =>
      ∀ d ∈ defs[i]?, AllOnTime defs s (targetKey d) (s.pending sql d now)

/-- No other writer of a target, and no pass whose nanoseconds overflow. -/
def Undisturbed (defs : List RollupDef) : Action → Prop
  | .arrive key _ => ∀ d ∈ defs, targetKey d ≠ key
  | .materializeOne i now => ∀ d ∈ defs[i]?, Representable d now

/-- The rows of each pass come back from the text they are written as. -/
def ReadBack (sql : Sql) (defs : List RollupDef) (s : State) : Action → Prop
  | .arrive .. => True
  | .materializeOne i now => ∀ d ∈ defs[i]?, Legible sql s d now

def Allowed (sql : Sql) (defs : List RollupDef) (s : State) (a : Action) : Prop :=
  Timely sql defs s a ∧ Undisturbed defs a ∧ ReadBack sql defs s a

instance (d : RollupDef) (last : Option Int) (p : Point) : Decidable (OnTime d last p) :=
  inferInstanceAs (Decidable (_ = _))

instance (defs : List RollupDef) (s : State) (key : TableKey) (rows : List Point) :
    Decidable (AllOnTime defs s key rows) :=
  inferInstanceAs (Decidable (∀ q ∈ defs.zipIdx, _))

instance (sql : Sql) (defs : List RollupDef) (s : State) : ∀ a, Decidable (Timely sql defs s a)
  | .arrive key p => inferInstanceAs (Decidable (AllOnTime defs s key [p]))
  | .materializeOne i now =>
      inferInstanceAs (Decidable (∀ d ∈ defs[i]?,
        AllOnTime defs s (targetKey d) (s.pending sql d now)))

instance (defs : List RollupDef) : ∀ a, Decidable (Undisturbed defs a)
  | .arrive key _ => inferInstanceAs (Decidable (∀ d ∈ defs, targetKey d ≠ key))
  | .materializeOne i now => inferInstanceAs (Decidable (∀ d ∈ defs[i]?, Representable d now))

instance (sql : Sql) (defs : List RollupDef) (s : State) : ∀ a, Decidable (ReadBack sql defs s a)
  | .arrive .. => inferInstanceAs (Decidable True)
  | .materializeOne i now => inferInstanceAs (Decidable (∀ d ∈ defs[i]?, Legible sql s d now))

instance (sql : Sql) (defs : List RollupDef) (s : State) (a : Action) :
    Decidable (Allowed sql defs s a) :=
  inferInstanceAs (Decidable (_ ∧ _ ∧ _))

theorem AllOnTime.reader {s : State} {key : TableKey} {rows : List Point}
    (h : AllOnTime defs s key rows) {j : Nat} {e : RollupDef} (he : defs[j]? = some e)
    (hsource : sourceKey e = key) : ∀ p ∈ rows, OnTime e (s.passes j) p :=
  h (e, j) (List.mk_mem_zipIdx_iff_getElem?.mpr he) hsource

/-- The rows of a definition's target, bucket by bucket and group by group. -/
def Settled (sql : Sql) (s : State) (i : Nat) (d : RollupDef) : Prop :=
  ∀ b g, rowsAt b g (s.tables (targetKey d)) =
    if isSealed d (s.passes i) b then
      (rollupPoint sql d b g (s.tables (sourceKey d))).toList
    else []

structure Inv (sql : Sql) (defs : List RollupDef) (s : State) : Prop where
  times : ∀ key, ∀ p ∈ s.tables key, IsI64 p.time
  clocks : ∀ i c, s.passes i = some c → IsI64 c ∧ ∃ n, s.clock = some n ∧ c ≤ n
  settled : ∀ i d, defs[i]? = some d → Settled sql s i d

theorem isSealed_of_le {last : Option Int} {now b : Int} (h : ∀ c, last = some c → c ≤ now)
    (hb : isSealed d last b) : isSealed d (some now) b := by
  obtain ⟨c, rfl, hle⟩ := (Option.any_eq_true _ _).mp hb
  have hc := h c rfl
  simp only [decide_eq_true_eq] at hle
  simp only [isSealed, Option.any_some, decide_eq_true_eq]
  omega

section Target

variable {s : State} {i : Nat} (hset : Settled sql s i d)

include hset

theorem Settled.mem {p : Point} (hp : p ∈ s.tables (targetKey d)) :
    isSealed d (s.passes i) p.time ∧
      rollupPoint sql d p.time p.tags (s.tables (sourceKey d)) = some p := by
  have hmem : p ∈ rowsAt p.time p.tags (s.tables (targetKey d)) := by
    simp [rowsAt, hp]
  rw [hset p.time p.tags] at hmem
  split at hmem
  · next hsealed => exact ⟨hsealed, by simpa using hmem⟩
  · cases hmem

/-- The watermark is a bucket of the target, and no row lies past it. -/
theorem Settled.watermark (hlabel : ∀ a ∈ d.aggregations, a.targetColumn ≠ visibilityColumn)
    {m : Int} (hm : targetWatermark (s.tables (targetKey d)) = some m) :
    (∃ p ∈ s.tables (targetKey d), p.time = m) ∧
      ∀ p ∈ s.tables (targetKey d), p.time ≤ m := by
  obtain ⟨hmem, hmax⟩ := List.max?_eq_some_iff.mp hm
  obtain ⟨p, hp, rfl⟩ := List.mem_map.mp hmem
  refine ⟨⟨p, (List.mem_filter.mp hp).1, rfl⟩, ?_⟩
  intro q hq
  apply hmax
  exact List.mem_map_of_mem (List.mem_filter.mpr ⟨hq, isPublic_rollupPoint hlabel (hset.mem hq).2⟩)

/-- What the watermark stands for: a bucket sealed earlier, one interval before
the lower bound that the code computes from it. -/
theorem Settled.lower (hvalid : d.validate = .ok ())
    (hlabel : ∀ a ∈ d.aggregations, a.targetColumn ≠ visibilityColumn)
    (htimes : ∀ p ∈ s.tables (targetKey d), IsI64 p.time)
    (hclock : ∀ c, s.passes i = some c → IsI64 c) {now : Int} (hrep : Representable d now)
    {m : Int} (hm : targetWatermark (s.tables (targetKey d)) = some m) :
    wrap64 (m + intervalNs d) = m + stepNs d ∧ stepNs d ∣ m ∧ isSealed d (s.passes i) m := by
  have hpos := stepNs_pos hvalid
  have hle := stepNs_le hvalid
  obtain ⟨⟨p, hp, rfl⟩, _⟩ := hset.watermark hlabel hm
  obtain ⟨hsealed, hpoint⟩ := hset.mem hp
  obtain ⟨⟨r, _, _, hbucket, _⟩, _⟩ := rollupPoint_eq_some hpoint
  obtain ⟨c, hc, hend⟩ := (Option.any_eq_true _ _).mp hsealed
  simp only [decide_eq_true_eq] at hend
  have hupper := (hclock c hc).2
  have hlo := (htimes p hp).1
  refine ⟨?_, hbucket ▸ dvd_floorTo r.time, hsealed⟩
  rw [intervalNs_eq hvalid hrep]
  exact wrap64_eq ⟨by omega, by omega⟩

/-- A pass over the definition leaves its target settled at the new clock. -/
theorem Settled.materializeOne (hvalid : d.validate = .ok ())
    (hlabel : ∀ a ∈ d.aggregations, a.targetColumn ≠ visibilityColumn)
    (htimes : ∀ p ∈ s.tables (targetKey d), IsI64 p.time)
    (hclock : ∀ c, s.passes i = some c → IsI64 c) {now : Int} (hnow : IsI64 now)
    (hlater : ∀ c, s.passes i = some c → c ≤ now) (hrep : Representable d now)
    (b : Int) (g : TagSet) :
    rowsAt b g (s.tables (targetKey d) ++ s.pending sql d now) =
      if isSealed d (some now) b then
        (rollupPoint sql d b g (s.tables (sourceKey d))).toList
      else [] := by
  have hpos := stepNs_pos hvalid
  have hhigh := high_eq hvalid hnow hrep
  have hdvd : stepNs d ∣ high d now := hhigh ▸ dvd_floorTo _
  have hlower : ∀ m, targetWatermark (s.tables (targetKey d)) = some m →
      stepNs d ∣ wrap64 (m + intervalNs d) := by
    intro m hm
    obtain ⟨heq, hm', _⟩ := hset.lower hvalid hlabel htimes hclock hrep hm
    rw [heq]
    exact Int.dvd_add hm' (Int.dvd_refl _)
  have hsplit : rowsAt b g (s.tables (targetKey d) ++ s.pending sql d now) =
      rowsAt b g (s.tables (targetKey d)) ++ rowsAt b g (s.pending sql d now) :=
    List.filter_append ..
  rw [hsplit, State.pending, rowsAt_rolledUp hpos hlower hdvd, hset b g]
  cases hpoint : rollupPoint sql d b g (s.tables (sourceKey d)) with
  | none => simp
  | some p =>
      obtain ⟨⟨r, _, _, hbucket, _⟩, htime, _⟩ := rollupPoint_eq_some hpoint
      have hb : stepNs d ∣ b := hbucket ▸ dvd_floorTo r.time
      have hend : b < high d now ↔ isSealed d (some now) b := by
        simp only [isSealed, Option.any_some, decide_eq_true_eq]
        have hiff := le_floorTo_iff hpos (Int.dvd_add hb (Int.dvd_refl _)) (now - lookbackNs d)
        rw [← hhigh] at hiff
        have hgap : b < high d now → b + stepNs d ≤ high d now :=
          add_le_of_dvd_of_lt hb hdvd
        omega
      by_cases hold : isSealed d (s.passes i) b
      · -- written by an earlier pass, so the watermark is not before it
        have hmem : p ∈ s.tables (targetKey d) := by
          have hrow : p ∈ rowsAt b g (s.tables (targetKey d)) := by
            rw [hset b g, if_pos hold, hpoint]
            simp
          exact (List.mem_filter.mp hrow).1
        have hnew := isSealed_of_le hlater hold
        cases hm : targetWatermark (s.tables (targetKey d)) with
        | none =>
            have hpublic := isPublic_rollupPoint hlabel hpoint
            simp only [targetWatermark, List.max?_eq_none_iff, List.map_eq_nil_iff,
              List.filter_eq_nil_iff] at hm
            exact absurd hpublic (hm p hmem)
        | some m =>
            obtain ⟨heq, _, _⟩ := hset.lower hvalid hlabel htimes hclock hrep hm
            have hle := (hset.watermark hlabel hm).2 p hmem
            have hout : inWindow (some (m + stepNs d)) (high d now) b = false := by
              simp only [inWindow, Option.all_some, Bool.and_eq_false_iff,
                decide_eq_false_iff_not]
              omega
            simp [hold, hnew, heq, hout]
      · -- open until now, so it lies past every bucket of the target
        have hpast : ∀ lo, (targetWatermark (s.tables (targetKey d))).map
            (fun m => wrap64 (m + intervalNs d)) = some lo → lo ≤ b := by
          intro lo hlo
          obtain ⟨m, hm, rfl⟩ := Option.map_eq_some_iff.mp hlo
          obtain ⟨heq, hm', hsealed⟩ := hset.lower hvalid hlabel htimes hclock hrep hm
          obtain ⟨c, hc, hcle⟩ := (Option.any_eq_true _ _).mp hsealed
          rw [hc] at hold
          simp only [decide_eq_true_eq] at hcle
          simp only [isSealed, Option.any_some, decide_eq_true_eq] at hold
          rw [heq]
          exact add_le_of_dvd_of_lt hm' hb (by omega)
        have hin : inWindow ((targetWatermark (s.tables (targetKey d))).map
            fun m => wrap64 (m + intervalNs d)) (high d now) b = isSealed d (some now) b := by
          rw [Bool.eq_iff_iff, ← hend, inWindow, Bool.and_eq_true, Option.all_eq_true]
          simp only [decide_eq_true_eq, and_iff_right_iff_imp]
          intro _ lo hlo
          exact hpast lo hlo
        simp [hold, hin]

end Target

theorem addRows_times {s : State} {key : TableKey} {rows : List Point}
    (htimes : ∀ key, ∀ p ∈ s.tables key, IsI64 p.time) (hrows : ∀ p ∈ rows, IsI64 p.time) :
    ∀ k, ∀ p ∈ addRows s.tables key rows k, IsI64 p.time := by
  intro k p hp
  by_cases hk : k = key
  · subst hk
    rw [addRows_self] at hp
    rcases List.mem_append.mp hp with hold | hnew
    · exact htimes k p hold
    · exact hrows p hnew
  · rw [addRows_ne _ hk] at hp
    exact htimes k p hp

/-- Rows on time for a definition, written anywhere but to its target, leave
its target settled. -/
theorem Settled.addRows {s t : State} {i : Nat} {key : TableKey} {rows : List Point}
    (hset : Settled sql s i d) (htables : t.tables = addRows s.tables key rows)
    (hpasses : t.passes i = s.passes i) (htarget : targetKey d ≠ key)
    (hontime : sourceKey d = key → ∀ p ∈ rows, OnTime d (s.passes i) p) :
    Settled sql t i d := by
  intro b g
  rw [htables, hpasses, addRows_ne _ htarget, hset b g]
  split
  · next hsealed =>
      by_cases hsource : sourceKey d = key
      · rw [← hsource, addRows_self, rollupPoint_append]
        intro p hp hb
        have hopen := hontime hsource p hp
        rw [OnTime, hb, hsealed] at hopen
        cases hopen
      · rw [addRows_ne _ hsource]
  · rfl

variable (haccepted : Accepted defs) (htargets : (defs.map targetKey).Nodup)
  (hlabel : ∀ d ∈ defs, ∀ a ∈ d.aggregations, a.targetColumn ≠ visibilityColumn)

include haccepted htargets hlabel

theorem Inv.step {s t : State} {a : Action} (hinv : Inv sql defs s) (hok : Allowed sql defs s a)
    (h : step sql defs s a = some t) : Inv sql defs t := by
  cases a with
  | arrive key p =>
      obtain ⟨hontime, htarget, _⟩ := hok
      unfold Rollup.step arrive at h
      dsimp only at h
      split at h
      · next hp =>
          obtain rfl := Option.some.inj h
          refine ⟨addRows_times hinv.times (by simpa using hp), hinv.clocks, ?_⟩
          intro j e he
          exact (hinv.settled j e he).addRows rfl rfl (htarget e (List.mem_of_getElem? he))
            (hontime.reader he)
      · cases h
  | materializeOne i now =>
      obtain ⟨d, hd, h⟩ := Option.bind_eq_some_iff.mp h
      have hontime := hok.1 d hd
      have hrep := hok.2.1 d hd
      have hread := hok.2.2 d hd
      have hmem := List.mem_of_getElem? hd
      have hvalid := haccepted.validate hmem
      unfold Rollup.materializeOne at h
      split at h
      · next hcond =>
          obtain ⟨hnow, hclock, hbuckets⟩ := hcond
          obtain ⟨lines, hlines, rfl⟩ := Option.map_eq_some_iff.mp h
          have hgroups : ∀ g ∈ s.groups sql d now, IsI64 g.1.1 := by simpa using hbuckets
          have htimes := pending_times hgroups
          rw [addLines_written hvalid hgroups hread hlines]
          have hlater : ∀ j c, s.passes j = some c → c ≤ now := by
            intro j c hc
            obtain ⟨_, n, hn, hle⟩ := hinv.clocks j c hc
            rw [hn] at hclock
            simp only [Option.all_some, decide_eq_true_eq] at hclock
            omega
          refine ⟨addRows_times hinv.times htimes, ?_, ?_⟩
          · intro j c hc
            by_cases hj : j = i
            · subst hj
              obtain rfl : now = c := by simpa using hc
              exact ⟨hnow, now, rfl, le_rfl⟩
            · have hc' : s.passes j = some c := by simpa [hj] using hc
              exact ⟨(hinv.clocks j c hc').1, now, rfl, hlater j c hc'⟩
          · intro j e he
            by_cases hj : j = i
            · subst hj
              obtain rfl : d = e := by simpa [hd] using he
              have hne : sourceKey d ≠ targetKey d := by
                intro heq
                exact (RollupDef.validate_ok hvalid).1 (Prod.mk.inj heq).2
              intro b g
              simp only [addRows_self, addRows_ne _ hne, Function.update_self]
              exact (hinv.settled j d hd).materializeOne hvalid (hlabel d hmem)
                (hinv.times _) (fun c hc => (hinv.clocks j c hc).1) hnow (hlater j) hrep b g
            · have htarget : targetKey e ≠ targetKey d := by
                intro heq
                have hlt : j < (defs.map targetKey).length := by
                  simpa using (List.getElem?_eq_some_iff.mp he).1
                apply hj
                apply (List.getElem?_inj hlt htargets).mp
                rw [List.getElem?_map, List.getElem?_map, he, hd, Option.map_some, Option.map_some,
                  heq]
              refine (hinv.settled j e he).addRows rfl ?_ htarget (hontime.reader he)
              simp [hj]
      · cases h

theorem Inv.run {s : State} {acts : List Action}
    (run : Run (Rollup.step sql defs) (Allowed sql defs) start acts s) : Inv sql defs s := by
  refine run.invariant (fun s a t hinv hok h => hinv.step haccepted htargets hlabel hok h) ?_
  refine ⟨fun _ _ hp => (by cases hp), fun _ _ hc => (by cases hc), ?_⟩
  intro i d _ b g
  simp [start, rowsAt, isSealed]

end Runs

section Samples

def counts : Sql where
  aggregate a rows :=
    match a.function with
    | .count => some (.int (.ofNat (rows.filter fun p => (p.cell a.sourceColumn).isSome).length))
    | _ => none
  keeps _ _ := true
  render _ := ""
  display := fun bits => padNat 0 bits.toNat
  floats := Producers.digitFloats
  inverse := Producers.digitFloats_inverse

def perMinute (source target : String) : RollupDef where
  db := "d"
  name := source
  source := source
  target := target
  intervalSecs := 60
  lookbackSecs := 120
  groupBy := []
  aggregations := [⟨.count, "v", "n", none⟩]
  filter := none

def reading (secs : Int) (tags : List (String × String)) : Point :=
  ⟨secs * nanos, tagSet tags, [("v", .bool true)]⟩

/-- A rollup, and a coarser one over its target. -/
def separate : List RollupDef :=
  putRollup { perMinute "m" "h" with intervalSecs := 120, lookbackSecs := 600,
                                      aggregations := [⟨.count, "n", "k", none⟩] }
    (putRollup (perMinute "s" "m") [])

def alone : List RollupDef := putRollup (perMinute "a" "t") []

/-- Two sources rolled up into one target. -/
def shared : List RollupDef := putRollup (perMinute "b" "t") (putRollup (perMinute "a" "t") [])

def endless : List RollupDef := putRollup { perMinute "a" "t" with lookbackSecs := 9223372037 } []

def labelling : List RollupDef :=
  putRollup { perMinute "a" "t" with aggregations := [⟨.count, "v", "_visibility", none⟩] } []

theorem separate_accepted : Accepted separate :=
  .set (.set .nil [] (by decide +kernel)) [] (by decide +kernel)

theorem alone_accepted : Accepted alone := .set .nil [] (by decide +kernel)

theorem shared_accepted : Accepted shared := .set alone_accepted [] (by decide +kernel)

/-- Rows of two buckets, one of them late but within the lookback, and passes
between them. -/
def readings : List Action :=
  [.arrive ("d", "s") (reading 10 [("host", "x")])] ++
    materializeRollupsAt separate (100 * nanos) ++
    [.arrive ("d", "s") (reading 20 [("host", "x")]),
      .arrive ("d", "s") (reading 70 [("host", "y")])] ++
    materializeRollupsAt separate (240 * nanos) ++ materializeRollupsAt separate (900 * nanos)

end Samples

/-- A row with a label is not counted: the pass reads without authorizations. -/
def LabelledRowLeftOut : Prop :=
  Accepted alone ∧ ∃ s, Run (step counts alone) (Timely counts alone) start
      (.arrive ("d", "a") (reading 10 [("_visibility", "ops")]) ::
        materializeRollupsAt alone (900 * nanos)) s ∧
    isSealed (perMinute "a" "t") (s.passes 0) 0 ∧
    groupFields counts (perMinute "a" "t") (s.tables ("d", "a")) = [("n", .int 1)] ∧
    s.tables ("d", "t") = []

/-- Of two definitions with one target, the second finds its buckets behind the
first one's watermark. -/
def SharedTargetSkips : Prop :=
  Accepted shared ∧ ∃ s, Run (step counts shared) (Timely counts shared) start
      ([.arrive ("d", "a") (reading 70 []), .arrive ("d", "b") (reading 10 [])] ++
        materializeRollupsAt shared (900 * nanos)) s ∧
    isSealed (perMinute "b" "t") (s.passes 1) 0 ∧
    rollupPoint counts (perMinute "b" "t") 0 (tagSet []) (s.tables ("d", "b")) =
      some ⟨0, tagSet [], [("n", .int 1)]⟩ ∧
    rowsAt 0 (tagSet []) (s.tables ("d", "t")) = []

/-- So does a row that a client writes to the target. -/
def WrittenTargetSkips : Prop :=
  Accepted alone ∧ ∃ s, Run (step counts alone) (Timely counts alone) start
      ([.arrive ("d", "a") (reading 10 []), .arrive ("d", "t") (reading 1000 [])] ++
        materializeRollupsAt alone (900 * nanos)) s ∧
    isSealed (perMinute "a" "t") (s.passes 0) 0 ∧
    rollupPoint counts (perMinute "a" "t") 0 (tagSet []) (s.tables ("d", "a")) =
      some ⟨0, tagSet [], [("n", .int 1)]⟩ ∧
    rowsAt 0 (tagSet []) (s.tables ("d", "t")) = []

/-- A lookback of 2^63 nanoseconds wraps: the bucket is sealed while it is
open, without a row that is still on time. -/
def OverflowSealsEarly : Prop :=
  Accepted endless ∧ ∃ s, Run (step counts endless) (Timely counts endless) start
      (.arrive ("d", "a") (reading 10 []) :: materializeRollupsAt endless (30 * nanos) ++
        .arrive ("d", "a") (reading 20 []) :: materializeRollupsAt endless (900 * nanos)) s ∧
    rowsAt 0 (tagSet []) (s.tables ("d", "t")) = [⟨0, tagSet [], [("n", .int 1)]⟩] ∧
    (s.tables ("d", "a")).length = 2

/-- Rows that carry a label of their own are not seen by the watermark. -/
def LabelColumnRepeats : Prop :=
  Accepted labelling ∧ ∃ s, Run (step counts labelling) (Timely counts labelling) start
      (.arrive ("d", "a") (reading 10 []) :: materializeRollupsAt labelling (900 * nanos) ++
        materializeRollupsAt labelling (960 * nanos)) s ∧
    (rowsAt 0 (tagSet []) (s.tables ("d", "t"))).length = 2

/-- A backslash at the end of a tag takes the next tag along: the target has a row of
another group. -/
def BackslashMovesRow : Prop :=
  Accepted alone ∧ ∃ s, Run (step counts alone) (Timely counts alone) start
      (.arrive ("d", "a") (reading 10 [("dc", "x\\"), ("host", "h")]) ::
        materializeRollupsAt alone (900 * nanos)) s ∧
    rollupPoint counts (perMinute "a" "t") 0 (tagSet [("dc", "x\\"), ("host", "h")])
      (s.tables ("d", "a")) = some ⟨0, tagSet [("dc", "x\\"), ("host", "h")], [("n", .int 1)]⟩ ∧
    s.tables ("d", "t") = [⟨0, tagSet [("dc", "x,host=h")], [("n", .int 1)]⟩]

end TimeLake.Rollup
