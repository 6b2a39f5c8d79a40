import TimeLake.Registry.Complete
import TimeLake.Query.Scan

/-!
The schema a query registers for a table: the second pass of `sql_batches`,
which merges what `table_schema` says with the schema of every live batch. A
conflict in the loop gives a table that fails every scan. A conflict inside
`table_schema` is swallowed, and the loop starts again from the live batches
alone; `never_narrows_iff` says when that loses nothing.
-/

namespace TimeLake.Registry

open TimeLake.Library TimeLake.Catalog TimeLake.Rows TimeLake.Ingest TimeLake.Query

section Provider

/-- What the second pass reads of a table: its registry entry, the columns of
the local buffer as they are by then, and the schemas of the live batches of the
first pass, which are the buffer's snapshot, the batch held by a flush and the
batches of the ingesters. -/
structure TableView where
  registry : Option Schema
  buffered : Option Schema
  snapshot : Option Schema
  held : Option Schema
  remote : List Schema
  hasFiles : Bool
  declared : Option TableSchema

def TableView.live (v : TableView) : List Schema :=
  v.snapshot.toList ++ v.held.toList ++ v.remote

/-- The providers of `crates/query`: the empty one of a declared table, the one
that reads buffer and files, and `ErrorTable`. -/
inductive Provider where
  | empty (schema : List (String × ArrowType))
  | lazy (schema : List (String × ArrowType))
  | error

def declaredDatatype : ColumnType → ArrowType
  | .float => .float64
  | .integer => .int64
  | .unsigned => .uint64
  | .boolean => .boolean
  | .string => .utf8

def declaredColumns (schema : TableSchema) : List (String × ArrowType × Bool) :=
  schema.columns.map fun c => (c.name, declaredDatatype c.ty, c.tag)

def declaredQuerySchema (columns : List (String × ArrowType × Bool)) : List (String × ArrowType) :=
  ("time", .timestamp .nanosecond) ::
    columns.map fun c => (c.1, if c.2.2 then .dictionary else c.2.1)

def tableSchema (registered buffered : Option Schema) : Option Schema :=
  match buffered with
  | some b => (schemaUnion registered b).toOption
  | none => registered

/-- The loop over the live batches, left at the first conflict. -/
def uniteLive (schema : Option Schema) (live : List Schema) :
    Except UnionConflict (Option Schema) :=
  live.foldlM (fun schema b => (schemaUnion schema b).map some) schema

def sqlProvider (v : TableView) : Option Provider :=
  if v.live = [] ∧ v.hasFiles = false then
    v.declared.map fun decl => .empty (declaredQuerySchema (declaredColumns decl))
  else
    match uniteLive (tableSchema v.registry v.buffered) v.live with
    | .error _ => some .error
    | .ok none => none
    | .ok (some schema) => some (.lazy (viewSchema (arrowSchema schema)))

end Provider

section Property

/-- The provider shows every known column with its type, a tag as the string
view it is read as, and restricts a labelled table; or it fails every scan. -/
def Provider.Shows (known : Schema) : Provider → Prop
  | .empty schema => ∀ c ∈ known, (c.1, arrowType c.2) ∈ schema
  | .lazy schema =>
      (∀ c ∈ known, (c.1, viewType (arrowType c.2)) ∈ schema) ∧
        (visibilityColumn ∈ known.map Prod.fst → ∀ session : QuerySession,
          .visibility visibilityColumn session.authorizations ∈ mandatoryPredicate session schema)
  | .error => True

/-- The columns of the registry entry and of every live batch. -/
def TableView.known (v : TableView) : Schema := v.registry.getD [] ++ v.live.flatten

def NeverNarrows (v : TableView) : Prop := ∀ p, sqlProvider v = some p → p.Shows v.known

instance : DecidablePred Consistent := fun s =>
  inferInstanceAs (Decidable (∀ p ∈ s, ∀ q ∈ s, p.1 = q.1 → p.2 = q.2))

/-- The registry entry and the local buffer give one name two types. -/
def Clash (v : TableView) : Prop :=
  ∃ a, v.registry = some a ∧ ∃ b, v.buffered = some b ∧ ¬Consistent (a.settle ++ b)

/-- The schemas that are merged, in order: after a clash the live batches only. -/
def Merged (v : TableView) (sources : List Schema) : Prop :=
  (Clash v ∧ sources = v.live) ∨
    (¬Clash v ∧ sources = v.registry.toList ++ v.buffered.toList ++ v.live)

/-- Several schemas of which a later one contradicts an earlier one. -/
def Conflict : List Schema → Prop
  | [] => False
  | first :: rest => rest ≠ [] ∧ ¬Consistent (first.settle ++ rest.flatten)

/-- An empty table keeps the columns of its registry entry when they are
declared. Any other does when the merge fails, or when its registry entry does
not clash with the local buffer, or only over columns that the live batches all
have, and the first of several schemas gives no name two types. -/
def KeepsColumns (v : TableView) : Prop :=
  if v.live = [] ∧ v.hasFiles = false then
    ∀ decl, v.declared = some decl → ∀ c ∈ v.registry.getD [],
      (c.1, arrowType c.2) ∈ declaredQuerySchema (declaredColumns decl)
  else
    ∀ sources, Merged v sources → Conflict sources ∨
      ((Clash v → v.live ≠ [] → ∀ c ∈ v.registry.getD [], c ∈ v.live.flatten) ∧
        ∀ first second rest, sources = first :: second :: rest →
          first ∈ v.registry.toList ++ v.live → Consistent first)

end Property

section Merge

theorem consistent_congr {s t : Schema} (h : ∀ c, c ∈ s ↔ c ∈ t) : Consistent s ↔ Consistent t := by
  simp only [Consistent, h]

theorem settle_eq_self {s : Schema} (h : Consistent s) : s.settle = s := by
  have hmap : s.settle = s.map id := by
    apply List.map_congr_left
    rintro ⟨name, dt⟩ hp
    obtain ⟨t, ht⟩ := types_isSome_of_mem hp
    have hsame : t = dt := h _ (mem_of_types ht) _ hp rfl
    simp [ht, hsame]
  rw [hmap, List.map_id]

theorem consistent_of_subset {s t : Schema} (h : Consistent t) (hsub : ∀ c ∈ s, c ∈ t) :
    Consistent s :=
  fun p hp q hq => h p (hsub p hp) q (hsub q hq)

theorem mem_unionInto {a b merged : Schema} (hcons : Consistent a)
    (h : unionInto a b = .ok merged) (c : String × DataType) : c ∈ merged ↔ c ∈ a ++ b := by
  have hboth := (unionInto_ok_iff a b hcons).mp ⟨merged, h⟩
  obtain ⟨hleft, hfrom, hright⟩ := unionInto_spec h
  constructor
  · exact fun hc => List.mem_append.mpr (hfrom c hc)
  · intro hc
    rcases List.mem_append.mp hc with hc' | hc'
    · exact hleft c hc'
    · obtain ⟨d, hd, hname⟩ := List.mem_map.mp (hright c hc')
      have hd' := List.mem_append.mpr (hfrom d hd)
      have : d = c := Prod.ext hname (hboth d hd' c hc hname)
      exact this ▸ hd

theorem uniteLive_nil (schema : Option Schema) : uniteLive schema [] = .ok schema := rfl

theorem uniteLive_none (b : Schema) (rest : List Schema) :
    uniteLive none (b :: rest) = uniteLive (some b) rest := rfl

theorem uniteLive_some (a b : Schema) (rest : List Schema) :
    uniteLive (some a) (b :: rest) =
      (unionInto a.settle b).bind fun u => uniteLive (some u) rest := by
  rw [uniteLive, List.foldlM_cons]
  simp only [schemaUnion]
  cases unionInto a.settle b <;> rfl

/-- Two or more schemas merge into one with all their columns, the first one
settled, unless a later one contradicts an earlier one. -/
theorem uniteLive_many (first second : Schema) (rest : List Schema) :
    (Consistent (first.settle ++ (second :: rest).flatten) ∧
      ∃ s, uniteLive (some first) (second :: rest) = .ok (some s) ∧
        ∀ c, c ∈ s ↔ c ∈ first.settle ++ (second :: rest).flatten) ∨
    (¬Consistent (first.settle ++ (second :: rest).flatten) ∧
      ∃ e, uniteLive (some first) (second :: rest) = .error e) := by
  induction rest generalizing first second with
  | nil =>
      have hiff := unionInto_ok_iff first.settle second (consistent_settle first)
      rw [uniteLive_some, List.flatten_singleton]
      cases h : unionInto first.settle second with
      | ok u =>
          exact .inl ⟨hiff.mp ⟨u, h⟩, u, rfl, mem_unionInto (consistent_settle first) h⟩
      | error e =>
          rw [h] at hiff
          refine .inr ⟨?_, e, rfl⟩
          intro hcons
          obtain ⟨_, hok⟩ := hiff.mpr hcons
          cases hok
  | cons third rest ih =>
      have hiff := unionInto_ok_iff first.settle second (consistent_settle first)
      rw [uniteLive_some, List.flatten_cons]
      cases h : unionInto first.settle second with
      | error e =>
          rw [h] at hiff
          refine .inr ⟨?_, e, rfl⟩
          intro hcons
          have hsub : Consistent (first.settle ++ second) := by
            apply consistent_of_subset hcons
            intro c hc
            rw [← List.append_assoc]
            exact List.mem_append_left _ hc
          obtain ⟨_, hok⟩ := hiff.mpr hsub
          cases hok
      | ok u =>
          have hmem := mem_unionInto (consistent_settle first) h
          have hu : Consistent u := (consistent_congr hmem).mpr (hiff.mp ⟨u, h⟩)
          have hall : ∀ c, c ∈ u.settle ++ (third :: rest).flatten ↔
              c ∈ first.settle ++ (second ++ (third :: rest).flatten) := by
            intro c
            rw [settle_eq_self hu, ← List.append_assoc, List.mem_append, hmem, List.mem_append]
            simp only [List.mem_append]
          change _ ∧ (∃ s, uniteLive (some u) (third :: rest) = _ ∧ _) ∨
            _ ∧ ∃ e, uniteLive (some u) (third :: rest) = _
          rw [← consistent_congr hall]
          simp only [← hall]
          exact ih u third

theorem exists_merged (v : TableView) : ∃ sources, Merged v sources ∧
    uniteLive (tableSchema v.registry v.buffered) v.live = uniteLive none sources := by
  by_cases hclash : Clash v
  · refine ⟨v.live, .inl ⟨hclash, rfl⟩, ?_⟩
    obtain ⟨a, ha, b, hb, hcons⟩ := hclash
    rw [← unionInto_ok_iff _ _ (consistent_settle a)] at hcons
    simp only [tableSchema, ha, hb, schemaUnion]
    cases h : unionInto a.settle b with
    | ok u => exact absurd ⟨u, h⟩ hcons
    | error e => rfl
  · refine ⟨_, .inr ⟨hclash, rfl⟩, ?_⟩
    cases ha : v.registry with
    | none => cases hb : v.buffered <;> rfl
    | some a =>
        cases hb : v.buffered with
        | none => rfl
        | some b =>
            have hcons : Consistent (a.settle ++ b) := by
              by_contra hne
              exact hclash ⟨a, ha, b, hb, hne⟩
            obtain ⟨u, hu⟩ := (unionInto_ok_iff _ _ (consistent_settle a)).mpr hcons
            change _ = uniteLive (some a) (b :: v.live)
            rw [uniteLive_some]
            simp only [tableSchema, schemaUnion, hu, Except.toOption, Except.bind]

theorem Merged.unique {v : TableView} {s t : List Schema} (hs : Merged v s) (ht : Merged v t) :
    s = t := by
  rcases hs with ⟨hc, rfl⟩ | ⟨hc, rfl⟩ <;> rcases ht with ⟨hd, rfl⟩ | ⟨hd, rfl⟩
  · rfl
  · exact absurd hc hd
  · exact absurd hd hc
  · rfl

theorem Merged.of_clash {v : TableView} {sources : List Schema} (h : Merged v sources)
    (hclash : Clash v) : sources = v.live := by
  rcases h with ⟨_, heq⟩ | ⟨hno, _⟩
  · exact heq
  · exact absurd hclash hno

theorem Merged.live {v : TableView} {sources : List Schema} (h : Merged v sources) :
    ∀ s ∈ v.live, s ∈ sources := by
  rcases h with ⟨_, rfl⟩ | ⟨_, rfl⟩
  · exact fun _ hs => hs
  · exact fun _ hs => List.mem_append_right _ hs

end Merge

section Presented

theorem viewType_arrowType_inj {s t : DataType}
    (h : viewType (arrowType s) = viewType (arrowType t)) : s = t := by
  cases s <;> cases t <;> first | rfl | cases h

theorem mem_view_iff {schema : Schema} {c : String × DataType} :
    (c.1, viewType (arrowType c.2)) ∈ viewSchema (arrowSchema schema) ↔ c ∈ schema := by
  constructor
  · intro h
    obtain ⟨p, hp, heq⟩ := List.mem_map.mp h
    obtain ⟨d, hd, rfl⟩ := List.mem_map.mp hp
    obtain ⟨hname, htype⟩ := Prod.mk.inj heq
    rwa [← show d = c from Prod.ext hname (viewType_arrowType_inj htype)]
  · intro h
    exact List.mem_map.mpr ⟨_, List.mem_map_of_mem h, rfl⟩

theorem mandatory_of_view {schema : Schema} (h : visibilityColumn ∈ schema.map Prod.fst)
    (session : QuerySession) :
    Restriction.visibility visibilityColumn session.authorizations ∈
      mandatoryPredicate session (viewSchema (arrowSchema schema)) := by
  have hsome : ((viewSchema (arrowSchema schema)).lookup visibilityColumn).isSome := by
    rw [Option.isSome_iff_ne_none]
    intro hnone
    obtain ⟨c, hc, hname⟩ := List.mem_map.mp h
    have hne := List.lookup_eq_none_iff.mp hnone _ (mem_view_iff.mpr hc)
    simp [hname] at hne
  rw [mandatoryPredicate, if_pos hsome]
  simp

theorem shows_lazy_iff {known schema : Schema} :
    (Provider.lazy (viewSchema (arrowSchema schema))).Shows known ↔ ∀ c ∈ known, c ∈ schema := by
  simp only [Provider.Shows, mem_view_iff]
  constructor
  · exact fun h => h.1
  · intro h
    refine ⟨h, fun hlabel => mandatory_of_view ?_⟩
    obtain ⟨c, hc, hname⟩ := List.mem_map.mp hlabel
    exact List.mem_map.mpr ⟨c, h c hc, hname⟩

/-- The registry entry heads the merged schemas unless it clashes. -/
theorem Merged.registry {v : TableView} {sources : List Schema} (h : Merged v sources)
    (hclash : ¬Clash v) {a : Schema} (ha : v.registry = some a) :
    ∃ rest, sources = a :: rest := by
  obtain ⟨hc, _⟩ | ⟨_, rfl⟩ := h
  · exact absurd hc hclash
  · exact ⟨v.buffered.toList ++ v.live, by simp [ha]⟩

theorem known_of_one {v : TableView} {s : Schema} (hm : Merged v [s])
    (hkeep : Clash v → v.live ≠ [] → ∀ c ∈ v.registry.getD [], c ∈ v.live.flatten) :
    ∀ c ∈ v.known, c ∈ s := by
  intro c hc
  rcases List.mem_append.mp hc with hreg | hlive
  · by_cases hclash : Clash v
    · have hlive : [s] = v.live := hm.of_clash hclash
      have hc' := hkeep hclash (hlive ▸ List.cons_ne_nil _ _) c hreg
      rwa [← hlive, List.flatten_singleton] at hc'
    · cases ha : v.registry with
      | none =>
          rw [ha] at hreg
          cases hreg
      | some a =>
          obtain ⟨tail, heq⟩ := hm.registry hclash ha
          obtain ⟨rfl, _⟩ := List.cons.inj heq
          rwa [ha] at hreg
  · obtain ⟨l, hl, hcl⟩ := List.mem_flatten.mp hlive
    exact List.mem_singleton.mp (hm.live l hl) ▸ hcl

/-- What several schemas merge into has every known column exactly when the
registry's are not lost with a clash and the first schema is not settled. -/
theorem known_subset_iff {v : TableView} {first second : Schema} {rest : List Schema}
    (hm : Merged v (first :: second :: rest))
    (hcons : Consistent (first.settle ++ (second :: rest).flatten)) :
    (∀ c ∈ v.known, c ∈ first.settle ++ (second :: rest).flatten) ↔
      (Clash v → v.live ≠ [] → ∀ c ∈ v.registry.getD [], c ∈ v.live.flatten) ∧
        (first ∈ v.registry.toList ++ v.live → Consistent first) := by
  constructor
  · intro h
    constructor
    · intro hclash _ c hc
      rw [← hm.of_clash hclash, List.flatten_cons]
      exact (List.mem_append.mp (h c (List.mem_append_left _ hc))).elim
        (fun hc => List.mem_append_left _ (mem_of_mem_settle hc)) (List.mem_append_right _)
    · intro hfirst
      apply consistent_of_subset hcons
      intro c hc
      apply h
      rcases List.mem_append.mp hfirst with hreg | hlive
      · rw [Option.mem_toList] at hreg
        exact List.mem_append_left _ (by rwa [hreg, Option.getD_some])
      · exact List.mem_append_right _ (List.mem_flatten.mpr ⟨first, hlive, hc⟩)
  · rintro ⟨hkeep, hfirst⟩ c hc
    have hin : ∀ s ∈ v.live, c ∈ s → c ∈ first.settle ++ (second :: rest).flatten := by
      intro s hs hcs
      rcases List.mem_cons.mp (hm.live s hs) with rfl | hrest
      · rw [settle_eq_self (hfirst (List.mem_append_right _ hs))]
        exact List.mem_append_left _ hcs
      · exact List.mem_append_right _ (List.mem_flatten.mpr ⟨s, hrest, hcs⟩)
    rcases List.mem_append.mp hc with hreg | hlive
    · by_cases hclash : Clash v
      · have hne : v.live ≠ [] := hm.of_clash hclash ▸ List.cons_ne_nil _ _
        obtain ⟨s, hs, hcs⟩ := List.mem_flatten.mp (hkeep hclash hne c hreg)
        exact hin s hs hcs
      · cases ha : v.registry with
        | none =>
            rw [ha] at hreg
            cases hreg
        | some a =>
            obtain ⟨tail, heq⟩ := hm.registry hclash ha
            obtain ⟨rfl, _⟩ := List.cons.inj heq
            rw [settle_eq_self (hfirst (by simp [ha]))]
            rw [ha, Option.getD_some] at hreg
            exact List.mem_append_left _ hreg
    · obtain ⟨s, hs, hcs⟩ := List.mem_flatten.mp hlive
      exact hin s hs hcs

/-- The provider of a table narrows neither its registry entry nor a live batch
exactly when `KeepsColumns`. -/
theorem never_narrows_iff (v : TableView) : NeverNarrows v ↔ KeepsColumns v := by
  unfold NeverNarrows KeepsColumns sqlProvider
  by_cases hempty : v.live = [] ∧ v.hasFiles = false
  · rw [if_pos hempty, if_pos hempty]
    cases hdecl : v.declared with
    | none => simp
    | some decl => simp [Provider.Shows, TableView.known, hempty.1]
  · rw [if_neg hempty, if_neg hempty]
    obtain ⟨sources, hm, hsources⟩ := exists_merged v
    rw [hsources]
    have hall : ∀ P : List Schema → Prop, (∀ t, Merged v t → P t) ↔ P sources :=
      fun P => ⟨fun h => h sources hm, fun h t ht => hm.unique ht ▸ h⟩
    rw [hall fun t => Conflict t ∨ _]
    match sources, hm with
    | [], hm =>
        have hlive : v.live = [] := List.eq_nil_iff_forall_not_mem.mpr fun s hs => by
          cases hm.live s hs
        simp [uniteLive_nil, Conflict, hlive]
    | [s], hm =>
        simp only [uniteLive_none, uniteLive_nil, Option.some.injEq, forall_eq', shows_lazy_iff]
        simp only [Conflict, ne_eq, not_true_eq_false, false_and, false_or]
        constructor
        · intro h
          refine ⟨?_, fun _ _ _ heq => by cases heq⟩
          intro hclash _ c hc
          rw [← hm.of_clash hclash, List.flatten_singleton]
          exact h c (List.mem_append_left _ hc)
        · rintro ⟨hkeep, _⟩ c hc
          exact known_of_one hm hkeep c hc
    | first :: second :: rest, hm =>
        rw [uniteLive_none]
        rcases uniteLive_many first second rest with ⟨hcons, s, hs, hmem⟩ | ⟨hne, e, he⟩
        · have hno : ¬Conflict (first :: second :: rest) := fun h => h.2 hcons
          simp only [hs, Option.some.injEq, forall_eq', shows_lazy_iff, hmem, hno, false_or]
          rw [known_subset_iff hm hcons]
          simp only [List.cons.injEq, and_imp]
          constructor
          · rintro ⟨hkeep, hfirst⟩
            exact ⟨hkeep, fun _ _ _ heq _ _ => heq ▸ hfirst⟩
          · rintro ⟨hkeep, hfirst⟩
            exact ⟨hkeep, hfirst first second rest rfl rfl rfl⟩
        · have hyes : Conflict (first :: second :: rest) := ⟨List.cons_ne_nil _ _, hne⟩
          simp [he, Provider.Shows, hyes]

/-- The registry has a labelled table with an integer column `v`, the local
buffer the same column as a float: the query is planned with the buffer's columns
alone, and no row of the files is hidden by its label. -/
def clashing : TableView where
  registry := some [("time", .timestamp), ("_visibility", .dictionary), ("v", .int64)]
  buffered := some [("time", .timestamp), ("v", .float64)]
  snapshot := some [("time", .timestamp), ("v", .float64)]
  held := none
  remote := []
  hasFiles := true
  declared := none

theorem clash_narrows : ¬NeverNarrows clashing ∧
    ∃ schema, sqlProvider clashing = some (.lazy schema) ∧
      (∀ session : QuerySession, session.tombstones = [] →
        mandatoryPredicate session schema = []) ∧
      ("_visibility", DataType.dictionary) ∈ clashing.known := by
  have hprov : sqlProvider clashing =
      some (.lazy [("time", .timestamp .nanosecond), ("v", .float64)]) := rfl
  refine ⟨fun h => ?_, _, hprov, ?_, by decide⟩
  · have hshow := (h _ hprov).1 ("_visibility", .dictionary) (by decide)
    exact absurd hshow (by decide)
  · intro session htomb
    simp [mandatoryPredicate, htomb, visibilityColumn]

end Presented

end TimeLake.Registry
