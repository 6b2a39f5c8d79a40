import TimeLake.Query.Narrow

/-!
The targeted-delete filter `apply_tombstone` of `crates/query` over the arrays of
a batch. It folds the equalities and the bounds of each tombstone into one flag
for every row, and keeps the rows that no tombstone has flagged. A tombstone on a
column the batch lacks flags nothing; one on a column that holds no strings
fails the batch.
-/

namespace TimeLake.Deletes

open TimeLake.Library TimeLake.Catalog TimeLake.Query

/-- A column of a batch, as far as the filter reads it. -/
inductive ColumnArray where
  | strings (a : LabelArray) (isText : isLabelType a.dataType = true)
  | timestamps (values : List (Option Int))
  | ints (values : List (Option Int))
  | other (ty : ArrowType) (length : Nat) (noText : isLabelType ty = false)
      (noTime : ty ≠ .timestamp .nanosecond ∧ ty ≠ .int64)

namespace ColumnArray

def length : ColumnArray → Nat
  | strings a _ => a.labels.length
  | timestamps values | ints values => values.length
  | other _ length _ _ => length

def dataType : ColumnArray → ArrowType
  | strings a _ => a.dataType
  | timestamps _ => .timestamp .nanosecond
  | ints _ => .int64
  | other ty _ _ _ => ty

/-- The string a row has in the column, if it is a column of strings. -/
def text (i : Nat) : ColumnArray → Option String
  | strings a _ => (a.labels[i]?).join
  | _ => none

/-- The time a row has in the column, if it can be read as one. -/
def time (i : Nat) : ColumnArray → Option Int
  | timestamps values | ints values => (values[i]?).join
  | _ => none

end ColumnArray

structure ColumnBatch (α : Type) where
  rows : List α
  columns : List (String × ColumnArray)
  aligned : ∀ p ∈ columns, p.2.length = rows.length

section Filter

/-- `string_col_equals`. -/
def stringColEquals (val : String) : ColumnArray → Except RestrictionError (List Bool)
  | .strings (.dictionary keys values _) _ =>
      let eq := values.map fun v => decide (v = some val)
      .ok (keys.map fun key =>
        match key with
        | none => false
        | some k => eq.getD k false)
  | .strings (.utf8 labels) _ | .strings (.utf8View labels) _ =>
      .ok (labels.map fun v => decide (v = some val))
  | a => .error (.tagNotString a.dataType)

/-- `read_ts_nanos`: a null reads as `i64::MIN`. -/
def readTsNanos : ColumnArray → Option (List Int)
  | .timestamps values | .ints values => some (values.map fun v => v.getD (-2 ^ 63))
  | _ => none

variable {α : Type} (b : ColumnBatch α)

/-- The rows that still match after each equality; `none` when the batch lacks one
of the columns. -/
def foldTags : List (String × String) → List Bool → Except RestrictionError (Option (List Bool))
  | [], still => .ok (some still)
  | (tag, val) :: rest, still =>
      match b.columns.lookup tag with
      | none => .ok none
      | some a =>
          match stringColEquals val a with
          | .error e => .error e
          | .ok eq => foldTags rest (List.zipWith (· && ·) still eq)

def isBounded (t : Tombstone) : Bool := t.minTsNs.isSome || t.maxTsNs.isSome

/-- The bounds of a tombstone; `none` when there is no time to compare. -/
def foldBounds (t : Tombstone) (timeVals : Option (List Int)) (still : List Bool) :
    Option (List Bool) :=
  if isBounded t then
    timeVals.map fun tv => List.zipWith (· && ·) still (tv.map (withinBounds t))
  else some still

/-- The flags of the rows to keep, after all tombstones. -/
def foldTombstones (timeVals : Option (List Int)) :
    List Tombstone → List Bool → Except RestrictionError (List Bool)
  | [], keep => .ok keep
  | t :: rest, keep =>
      match foldTags b t.tagEquals (List.replicate b.rows.length true) with
      | .error e => .error e
      | .ok still =>
          match still.bind (foldBounds t timeVals) with
          | none => foldTombstones timeVals rest keep
          | some gone =>
              foldTombstones timeVals rest (List.zipWith (fun keep gone => keep && !gone) keep gone)

/-- `apply_tombstone`. -/
def applyTombstone (deletes : List Tombstone) : Except RestrictionError (List α) :=
  if b.rows.isEmpty || deletes.isEmpty then .ok b.rows
  else
    (foldTombstones b ((b.columns.lookup "time").bind readTsNanos) deletes
      (List.replicate b.rows.length true)).map (filterRows b.rows)

end Filter

section Spec

variable {α : Type}

namespace ColumnBatch

def textAt (b : ColumnBatch α) (name : String) (i : Nat) : Option String :=
  (b.columns.lookup name).bind (ColumnArray.text i)

def timeAt (b : ColumnBatch α) (i : Nat) : Option Int :=
  (b.columns.lookup "time").bind (ColumnArray.time i)

/-- Every equality holds on a string that is there, and the time lies within the
bounds that are given. -/
def Matches (b : ColumnBatch α) (t : Tombstone) (i : Nat) : Bool :=
  t.tagEquals.all (fun p => b.textAt p.1 i = some p.2) &&
    (!isBounded t || (b.timeAt i).any (withinBounds t))

/-- The rows no tombstone matches, in their order. -/
def unmatched (b : ColumnBatch α) (deletes : List Tombstone) : List α :=
  (b.rows.zipIdx.filter fun p => !deletes.any fun t => b.Matches t p.2).map Prod.fst

/-- No equality is on a column without strings, up to the first one on a column
the batch lacks. -/
def readable (b : ColumnBatch α) : List (String × String) → Bool
  | [] => true
  | (tag, _) :: rest =>
      match b.columns.lookup tag with
      | none => true
      | some a => isLabelType a.dataType && b.readable rest

/-- Every row has a time, where the batch has a time column at all. -/
def Timed (b : ColumnBatch α) : Prop :=
  ∀ a, b.columns.lookup "time" = some a → readTsNanos a ≠ none →
    ∀ i < b.rows.length, a.time i ≠ none

end ColumnBatch

/-- The bounds of a tombstone leave out a time that reads as `i64::MIN`. -/
def excludesNull (t : Tombstone) : Prop :=
  isBounded t = true → ∃ lo, t.minTsNs = some lo ∧ -2 ^ 63 < lo

/-- A list with one entry for each row. -/
def perRow {β : Type} (n : Nat) (f : Nat → β) : List β := (List.range n).map f

theorem zipWith_perRow {β γ δ : Type} (op : β → γ → δ) (n : Nat) (f : Nat → β) (g : Nat → γ) :
    List.zipWith op (perRow n f) (perRow n g) = perRow n fun i => op (f i) (g i) := by
  simp [perRow, List.zipWith_map, List.zipWith_self]

theorem perRow_congr {β : Type} {n : Nat} {f g : Nat → β} (h : ∀ i < n, f i = g i) :
    perRow n f = perRow n g :=
  List.map_congr_left fun i hi => h i (List.mem_range.mp hi)

theorem replicate_eq_perRow {β : Type} (n : Nat) (x : β) :
    List.replicate n x = perRow n fun _ => x := by
  simp [perRow]

theorem map_eq_perRow {β γ : Type} (f : Option β → γ) (xs : List (Option β)) :
    xs.map f = perRow xs.length fun i => f (xs[i]?).join := by
  apply List.ext_getElem
  · simp [perRow]
  · intro i h _
    have hi : i < xs.length := by simpa using h
    simp [perRow, List.getElem?_eq_getElem hi]

/-- Each shape a column of strings arrives in compares its rows alike. -/
theorem stringColEquals_eq (val : String) (a : ColumnArray) :
    stringColEquals val a =
      if isLabelType a.dataType then .ok (perRow a.length fun i => decide (a.text i = some val))
      else .error (.tagNotString a.dataType) := by
  cases a with
  | timestamps values | ints values => rfl
  | other ty length noText noTime =>
      rw [if_neg (by simp [ColumnArray.dataType, noText])]
      rfl
  | strings a isText =>
      rw [ColumnArray.dataType, if_pos isText]
      have hperRow := map_eq_perRow (fun v => decide (v = some val)) a.labels
      cases a with
      | utf8 labels | utf8View labels => exact congrArg Except.ok hperRow
      | other ty length noLabel => exact absurd isText (by simp [LabelArray.dataType, noLabel])
      | dictionary keys values inRange =>
          refine congrArg Except.ok (Eq.trans ?_ hperRow)
          rw [LabelArray.labels, List.map_map]
          apply List.map_congr_left
          intro key hkey
          cases key with
          | none => rfl
          | some k =>
              have hk := inRange k hkey
              simp only [List.getD_eq_getElem?_getD, List.getElem?_map, Function.comp,
                Option.bind_some, List.getElem?_eq_getElem hk, Option.map_some, Option.getD_some,
                Option.join_some]

theorem readTsNanos_cases (a : ColumnArray) :
    (readTsNanos a = none ∧ ∀ i, a.time i = none) ∨
      readTsNanos a = some (perRow a.length fun i => (a.time i).getD (-2 ^ 63)) := by
  cases a with
  | timestamps values | ints values => exact .inr (congrArg some (map_eq_perRow _ values))
  | strings a isText => exact .inl ⟨rfl, fun _ => rfl⟩
  | other ty length noText noTime => exact .inl ⟨rfl, fun _ => rfl⟩

theorem mem_of_lookup_eq {b : ColumnBatch α} {name : String} {a : ColumnArray}
    (h : b.columns.lookup name = some a) : a.length = b.rows.length :=
  b.aligned (name, a) (mem_of_lookup h)

/-- The equalities of a tombstone fail on a column without strings, flag nothing
on a missing one, and otherwise flag the rows on which all of them hold. -/
theorem foldTags_eq (b : ColumnBatch α) (tags : List (String × String)) (f : Nat → Bool) :
    if b.readable tags then
      ∃ r, foldTags b tags (perRow b.rows.length f) = .ok r ∧
        (r = some (perRow b.rows.length fun i =>
            f i && tags.all fun p => decide (b.textAt p.1 i = some p.2)) ∨
          (r = none ∧ ∃ p ∈ tags, b.columns.lookup p.1 = none))
    else ∃ e, foldTags b tags (perRow b.rows.length f) = .error e := by
  induction tags generalizing f with
  | nil =>
      refine ⟨_, rfl, .inl ?_⟩
      simp
  | cons p rest ih =>
      obtain ⟨tag, val⟩ := p
      cases ha : b.columns.lookup tag with
      | none =>
          rw [if_pos (by rw [ColumnBatch.readable, ha])]
          refine ⟨none, by rw [foldTags, ha], .inr ⟨rfl, (tag, val), List.mem_cons_self, ha⟩⟩
      | some a =>
          have hread : b.readable ((tag, val) :: rest) =
              (isLabelType a.dataType && b.readable rest) := by rw [ColumnBatch.readable, ha]
          rw [hread, foldTags, ha]
          simp only [stringColEquals_eq]
          cases htext : isLabelType a.dataType with
          | false => exact ⟨_, rfl⟩
          | true =>
              have htail := ih fun i => f i && decide (a.text i = some val)
              simp only [if_true, Bool.true_and, mem_of_lookup_eq ha, zipWith_perRow]
              split
              · next hrest =>
                  rw [if_pos hrest] at htail
                  obtain ⟨r, hr, hcases⟩ := htail
                  refine ⟨r, hr, hcases.imp ?_ ?_⟩
                  · rintro rfl
                    congr 2
                    funext i
                    rw [List.all_cons, ColumnBatch.textAt, ha, Option.bind_some, Bool.and_assoc]
                  · rintro ⟨hnone, q, hq, hmissing⟩
                    exact ⟨hnone, q, List.mem_cons_of_mem _ hq, hmissing⟩
              · next hrest =>
                  rwa [if_neg hrest] at htail

theorem filterRows_perRow (rows : List α) (f : Nat → Bool) (k : Nat) :
    filterRows rows ((List.range' k rows.length).map f) =
      ((rows.zipIdx k).filter fun p => f p.2).map Prod.fst := by
  induction rows generalizing k with
  | nil => rfl
  | cons r rows ih =>
      rw [List.length_cons, List.range'_succ, List.map_cons, filterRows_cons, ih,
        List.zipIdx_cons, List.filter_cons]
      cases f k <;> rfl

/-- A null time lies within no bounds of the tombstone, read as it is. -/
theorem within_null {t : Tombstone} (ht : excludesNull t) (hbounded : isBounded t = true) :
    withinBounds t (-2 ^ 63) = false := by
  obtain ⟨lo, hlo, hlt⟩ := ht hbounded
  rw [withinBounds, hlo, Option.all_some, decide_eq_false (not_le.mpr hlt), Bool.false_and]

/-- What one tombstone flags: the rows it matches. -/
theorem flags_eq (b : ColumnBatch α) {t : Tombstone} (hnull : b.Timed ∨ excludesNull t)
    (hread : b.readable t.tagEquals = true) :
    ∃ still, foldTags b t.tagEquals (List.replicate b.rows.length true) = .ok still ∧
      (still.bind (foldBounds t ((b.columns.lookup "time").bind readTsNanos)) =
          some (perRow b.rows.length (b.Matches t)) ∨
        (still.bind (foldBounds t ((b.columns.lookup "time").bind readTsNanos)) = none ∧
          ∀ i, b.Matches t i = false)) := by
  have htags := foldTags_eq b t.tagEquals fun _ => true
  rw [if_pos hread, ← replicate_eq_perRow] at htags
  obtain ⟨still, hfold, hstill⟩ := htags
  refine ⟨still, hfold, ?_⟩
  rcases hstill with rfl | ⟨rfl, p, hp, hmissing⟩
  · rw [Option.bind_some, foldBounds]
    cases hbounded : isBounded t with
    | false =>
        refine .inl (congrArg some (perRow_congr fun i _ => ?_))
        rw [ColumnBatch.Matches, hbounded, Bool.true_and, Bool.not_false, Bool.true_or,
          Bool.and_true]
    | true =>
        simp only [if_true, Bool.true_and]
        have hmatches : ∀ i, b.Matches t i =
            ((t.tagEquals.all fun p => decide (b.textAt p.1 i = some p.2)) &&
              (b.timeAt i).any (withinBounds t)) := by
          intro i
          rw [ColumnBatch.Matches, hbounded, Bool.not_true, Bool.false_or]
        cases ha : b.columns.lookup "time" with
        | none =>
            refine .inr ⟨rfl, fun i => ?_⟩
            rw [hmatches, ColumnBatch.timeAt, ha, Option.bind_none, Option.any_none, Bool.and_false]
        | some a =>
            rw [Option.bind_some]
            rcases readTsNanos_cases a with ⟨hunread, htimeless⟩ | hvals
            · refine .inr ⟨by rw [hunread, Option.map_none], fun i => ?_⟩
              rw [hmatches, ColumnBatch.timeAt, ha, Option.bind_some, htimeless, Option.any_none,
                Bool.and_false]
            · left
              have hmap : (perRow a.length fun i => (a.time i).getD (-2 ^ 63)).map
                  (withinBounds t) = perRow b.rows.length fun i =>
                    withinBounds t ((a.time i).getD (-2 ^ 63)) := by
                rw [perRow, List.map_map, mem_of_lookup_eq ha]
                rfl
              rw [hvals, Option.map_some, hmap, zipWith_perRow]
              refine congrArg some (perRow_congr fun i hi => ?_)
              rw [hmatches, ColumnBatch.timeAt, ha, Option.bind_some]
              cases htime : a.time i with
              | some v => rw [Option.getD_some, Option.any_some]
              | none =>
                  rcases hnull with htimed | hexcludes
                  · exact absurd htime (htimed a ha (by simp [hvals]) i hi)
                  · rw [Option.getD_none, within_null hexcludes hbounded, Option.any_none]
  · refine .inr ⟨rfl, fun i => ?_⟩
    have hfails : (t.tagEquals.all fun p => decide (b.textAt p.1 i = some p.2)) = false := by
      refine List.all_eq_false.mpr ⟨p, hp, ?_⟩
      rw [ColumnBatch.textAt, hmissing, Option.bind_none]
      simp
    rw [ColumnBatch.Matches, hfails, Bool.false_and]

theorem foldTombstones_eq (b : ColumnBatch α) {deletes : List Tombstone}
    (hnull : ∀ t ∈ deletes, b.Timed ∨ excludesNull t)
    (hread : ∀ t ∈ deletes, b.readable t.tagEquals = true) (f : Nat → Bool) :
    foldTombstones b ((b.columns.lookup "time").bind readTsNanos) deletes
        (perRow b.rows.length f) =
      .ok (perRow b.rows.length fun i => f i && !deletes.any fun t => b.Matches t i) := by
  induction deletes generalizing f with
  | nil => simp [foldTombstones]
  | cons t rest ih =>
      have hrest := ih (fun t' ht' => hnull t' (List.mem_cons_of_mem _ ht'))
        fun t' ht' => hread t' (List.mem_cons_of_mem _ ht')
      obtain ⟨still, hfold, hcases⟩ :=
        flags_eq b (hnull t List.mem_cons_self) (hread t List.mem_cons_self)
      rw [foldTombstones, hfold]
      rcases hcases with hflags | ⟨hnone, hmatches⟩
      · simp only [hflags, zipWith_perRow, hrest]
        refine congrArg Except.ok (perRow_congr fun i _ => ?_)
        rw [List.any_cons, Bool.not_or, Bool.and_assoc]
      · simp only [hnone, hrest]
        refine congrArg Except.ok (perRow_congr fun i _ => ?_)
        rw [List.any_cons, hmatches, Bool.false_or]

theorem foldTombstones_error (b : ColumnBatch α) (timeVals : Option (List Int))
    {deletes : List Tombstone} (h : ∃ t ∈ deletes, b.readable t.tagEquals = false)
    (keep : List Bool) : ∃ e, foldTombstones b timeVals deletes keep = .error e := by
  obtain ⟨t, ht, hunreadable⟩ := h
  induction deletes generalizing keep with
  | nil => cases ht
  | cons t' rest ih =>
      have htags := foldTags_eq b t'.tagEquals fun _ => true
      rw [← replicate_eq_perRow] at htags
      rw [foldTombstones]
      rcases List.mem_cons.mp ht with rfl | ht
      · rw [if_neg (by simp [hunreadable])] at htags
        obtain ⟨e, he⟩ := htags
        exact ⟨e, by rw [he]⟩
      · cases hfold : foldTags b t'.tagEquals (List.replicate b.rows.length true) with
        | error e => exact ⟨e, rfl⟩
        | ok still =>
            simp only
            split
            · exact ih keep ht
            · exact ih _ ht

theorem foldTombstones_ok (b : ColumnBatch α) (timeVals : Option (List Int))
    {deletes : List Tombstone} (hread : ∀ t ∈ deletes, b.readable t.tagEquals = true)
    (keep : List Bool) : ∃ keep', foldTombstones b timeVals deletes keep = .ok keep' := by
  induction deletes generalizing keep with
  | nil => exact ⟨keep, rfl⟩
  | cons t rest ih =>
      have hrest := ih fun t' ht' => hread t' (List.mem_cons_of_mem _ ht')
      have htags := foldTags_eq b t.tagEquals fun _ => true
      rw [if_pos (hread t List.mem_cons_self), ← replicate_eq_perRow] at htags
      obtain ⟨still, hfold, _⟩ := htags
      rw [foldTombstones, hfold]
      simp only
      split
      · exact hrest keep
      · exact hrest _

/-- The filter succeeds when there is no row or every tombstone can be read. -/
theorem applyTombstone_ok_iff (b : ColumnBatch α) (deletes : List Tombstone) :
    (∃ rows, applyTombstone b deletes = .ok rows) ↔
      b.rows = [] ∨ ∀ t ∈ deletes, b.readable t.tagEquals = true := by
  by_cases hempty : (b.rows.isEmpty || deletes.isEmpty) = true
  · rw [applyTombstone, if_pos hempty]
    rw [Bool.or_eq_true, List.isEmpty_iff, List.isEmpty_iff] at hempty
    refine ⟨fun _ => hempty.imp_right ?_, fun _ => ⟨b.rows, rfl⟩⟩
    rintro rfl t ht
    cases ht
  · rw [applyTombstone, if_neg hempty]
    have hrows : b.rows ≠ [] := by
      rintro hnil
      simp [hnil] at hempty
    constructor
    · rintro ⟨rows, h⟩
      refine .inr fun t ht => ?_
      by_contra hunread
      obtain ⟨e, he⟩ := foldTombstones_error b ((b.columns.lookup "time").bind readTsNanos)
        ⟨t, ht, by simpa using hunread⟩ (List.replicate b.rows.length true)
      rw [he] at h
      cases h
    · intro h
      obtain ⟨keep, hkeep⟩ := foldTombstones_ok b ((b.columns.lookup "time").bind readTsNanos)
        (h.resolve_left hrows) (List.replicate b.rows.length true)
      exact ⟨filterRows b.rows keep, by rw [hkeep]; rfl⟩

/-- The filter fails when a row is there and some tombstone is on a column without
strings, and otherwise keeps the rows no tombstone matches. -/
theorem applyTombstone_eq (b : ColumnBatch α) {deletes : List Tombstone}
    (hnull : ∀ t ∈ deletes, b.Timed ∨ excludesNull t) :
    if b.rows = [] ∨ ∀ t ∈ deletes, b.readable t.tagEquals = true then
      applyTombstone b deletes = .ok (b.unmatched deletes)
    else ∃ e, applyTombstone b deletes = .error e := by
  split
  · next hok =>
      rw [applyTombstone]
      by_cases hrows : b.rows = []
      · rw [if_pos (by simp [hrows]), ColumnBatch.unmatched, hrows]
        rfl
      · by_cases hdeletes : deletes = []
        · subst hdeletes
          rw [if_pos (by simp), ColumnBatch.unmatched]
          simp [List.zipIdx_map_fst]
        · rw [if_neg (by simp [hrows, hdeletes]), replicate_eq_perRow,
            foldTombstones_eq b hnull (hok.resolve_left hrows), Except.map]
          apply congrArg Except.ok
          have hkeep := filterRows_perRow b.rows (fun i => !deletes.any fun t => b.Matches t i) 0
          rw [ColumnBatch.unmatched, ← hkeep, perRow, List.range_eq_range']
          simp
  · next hbad =>
      cases happly : applyTombstone b deletes with
      | error e => exact ⟨e, rfl⟩
      | ok rows => exact absurd ((applyTombstone_ok_iff b deletes).mp ⟨rows, happly⟩) hbad

end Spec

end TimeLake.Deletes
