import TimeLake.Library.LastWins
import TimeLake.Library.Decimal
import Mathlib.Data.Prod.Lex
import Mathlib.Data.List.Lex
import Mathlib.Data.List.Dedup
import Mathlib.Order.WithBot

/-!
Rows on their way into a Parquet file: `flush::prepare_ordered` of
`crates/buffer` and `merge_files` of `crates/compact`. A batch is the list of
its rows in arrival order and a Parquet file the list of the rows it holds.
The order of the tag columns in a batch's schema, and the column a merge
clusters by, decide the order of the rows in the file and nothing else, so
they are arguments.
-/

namespace TimeLake.Rows

open TimeLake.Library

/-- The tags of a row: a map from names to values, kept sorted by name. A
missing tag is a null in its column. -/
structure TagSet where
  pairs : List (String × String)
  sorted : pairs.Pairwise fun a b => a.1 < b.1
  deriving DecidableEq

def TagSet.get (t : TagSet) (name : String) : Option String := t.pairs.lookup name

theorem TagSet.get_eq_some {t : TagSet} {name value : String} :
    t.get name = some value ↔ (name, value) ∈ t.pairs := by
  obtain ⟨pairs, hsorted⟩ := t
  unfold TagSet.get
  dsimp only
  induction pairs with
  | nil => simp
  | cons p rest ih =>
      obtain ⟨hhead, htail⟩ := List.pairwise_cons.mp hsorted
      obtain ⟨n, v⟩ := p
      by_cases hn : name = n
      · subst hn
        have hout : (name, value) ∉ rest := fun hmem => lt_irrefl name (hhead (name, value) hmem)
        simp [hout, eq_comm]
      · have hne : (name == n) = false := by simpa using hn
        simp [List.lookup_cons, hne, hn, ih htail]

theorem TagSet.ext_get {a b : TagSet} (h : ∀ name, a.get name = b.get name) : a = b := by
  have hmem : ∀ p, p ∈ a.pairs ↔ p ∈ b.pairs := by
    rintro ⟨name, value⟩
    rw [← TagSet.get_eq_some, ← TagSet.get_eq_some, h name]
  have hnodup : ∀ t : TagSet, t.pairs.Nodup := by
    intro t
    refine t.sorted.imp ?_
    rintro p q hlt rfl
    exact lt_irrefl _ hlt
  have hperm := (List.perm_ext_iff_of_nodup (hnodup a) (hnodup b)).mpr hmem
  have hpairs : a.pairs = b.pairs := by
    refine hperm.eq_of_pairwise ?_ a.sorted b.sorted
    intro p q _ _ hpq hqp
    exact absurd (lt_trans hpq hqp) (lt_irrefl _)
  cases a
  cases b
  cases hpairs
  rfl

inductive FieldValue where
  | float (bits : UInt64)
  | int (value : Int64)
  | uint (value : UInt64)
  | bool (value : Bool)
  | str (value : String)
  deriving DecidableEq

/-- `arrival` numbers the rows in the order the clients' writes were accepted.
The program does not store it; it is what the order of a buffer stands for. -/
structure Row where
  time : Int
  tags : TagSet
  fields : List (String × FieldValue)
  arrival : Nat
  deriving DecidableEq

abbrev RowKey := Int × TagSet

/-- The primary key: time plus all tags. -/
def Row.key (r : Row) : RowKey := (r.time, r.tags)

/-- Days since the epoch as year, month and day. -/
def civilFromDays (days : Int) : Int × Nat × Nat :=
  let z := days + 719468
  let era := z / 146097
  let doe := z % 146097
  let yoe := (doe - doe / 1460 + doe / 36524 - doe / 146096) / 365
  let y := yoe + era * 400
  let doy := doe - (365 * yoe + yoe / 4 - yoe / 100)
  let mp := (5 * doy + 2) / 153
  let d := (doy - (153 * mp + 2) / 5 + 1).toNat
  let m := (if mp < 10 then mp + 3 else mp - 9).toNat
  (if m ≤ 2 then y + 1 else y, m, d)

/-- `flush::hour_partition`. -/
def hourPartition (tsNs : Int) : String :=
  let secs := tsNs / 1000000000
  let sod := secs % 86400
  let (y, m, d) := civilFromDays (secs / 86400)
  String.ofList (padInt 4 y ++ padNat 2 m ++ padNat 2 d ++ padNat 2 (sod / 3600).toNat)

example : hourPartition 1786179600000000000 = "2026080809" := by decide +kernel

def Row.hour (r : Row) : String := hourPartition r.time

/-- The tag columns of a batch in schema order, without the one it is
clustered by. -/
structure Clustering where
  leading : Option String
  columns : List String
  deriving DecidableEq, Repr

def Clustering.covers (c : Clustering) (r : Row) : Bool :=
  r.tags.pairs.all fun p => c.columns.contains p.1 || c.leading == some p.1

/-- The sort key of `prepare_ordered`: the clustering column, the time, the
other tag columns; nulls first. -/
abbrev PkOrder := WithBot String ×ₗ Int ×ₗ List (WithBot String)

def Row.cell (r : Row) (name : String) : WithBot String := r.tags.get name

def Row.pk (c : Clustering) (r : Row) : PkOrder :=
  toLex ((c.leading.bind r.tags.get : Option String),
    toLex (r.time, c.columns.map r.cell))

theorem key_eq_of_pk_eq {c : Clustering} {a b : Row} (ha : c.covers a) (hb : c.covers b)
    (h : a.pk c = b.pk c) : a.key = b.key := by
  have hpair := toLex.injective h
  have hleading : (c.leading.bind a.tags.get : Option String) = c.leading.bind b.tags.get :=
    congrArg Prod.fst hpair
  have hrest := toLex.injective (congrArg Prod.snd hpair)
  have htime : a.time = b.time := congrArg Prod.fst hrest
  have hcells : c.columns.map a.cell = c.columns.map b.cell := congrArg Prod.snd hrest
  have hcovered : ∀ name, (name ∈ c.columns ∨ c.leading = some name) →
      a.tags.get name = b.tags.get name := by
    rintro name (hcol | hlead)
    · exact List.map_inj_left.mp hcells name hcol
    · simpa [hlead] using hleading
  have hother : ∀ r : Row, c.covers r → ∀ name,
      ¬ (name ∈ c.columns ∨ c.leading = some name) → r.tags.get name = none := by
    intro r hr name hout
    cases hget : r.tags.get name with
    | none => rfl
    | some value =>
        have := List.all_eq_true.mp hr _ (TagSet.get_eq_some.mp hget)
        exact absurd (by simpa using this) hout
  have htags : a.tags = b.tags := by
    apply TagSet.ext_get
    intro name
    by_cases hin : name ∈ c.columns ∨ c.leading = some name
    · exact hcovered name hin
    · rw [hother a ha name hin, hother b hb name hin]
  rw [Row.key, Row.key, htime, htags]

theorem pk_eq_of_key_eq {c : Clustering} {a b : Row} (h : a.key = b.key) : a.pk c = b.pk c := by
  obtain ⟨htime, htags⟩ := Prod.mk.inj h
  have hcell : a.cell = b.cell := by
    funext name
    rw [Row.cell, Row.cell, htags]
  rw [Row.pk, Row.pk, htime, htags, hcell]

/-- `flush::prepare_ordered`: sort by primary key, keep the last write of each,
split by hour, earliest partition string first. -/
def prepareOrdered (c : Clustering) (rows : List Row) : List (String × List Row) :=
  let kept := sortKeepLast (Row.pk c) rows
  let hours := (kept.map Row.hour).dedup.insertionSort (· ≤ ·)
  hours.map fun hour => (hour, kept.filter fun r => r.hour = hour)

/-- `flush::prepare`: time first. -/
def prepare (columns : List String) (rows : List Row) : List (String × List Row) :=
  prepareOrdered ⟨none, columns⟩ rows

/-- `flush::time_bounds`. -/
def timeBounds (rows : List Row) : Int × Int :=
  (rows.foldl (fun lo r => min lo r.time) (2 ^ 63 - 1),
    rows.foldl (fun hi r => max hi r.time) (-2 ^ 63))

inductive MergeError where
  | nothingToMerge
  | crossedHourPartitions (produced : Nat)
  deriving DecidableEq, Repr

structure Merged where
  rows : List Row
  minTs : Int
  maxTs : Int

/-- `merge_files`, the sets of rows oldest file first. -/
def mergeFiles (c : Clustering) (sets : List (List Row)) : Except MergeError Merged :=
  if sets.flatten = [] then .error .nothingToMerge
  else match prepareOrdered c sets.flatten with
    | [(_, rows)] => .ok ⟨rows, (timeBounds rows).1, (timeBounds rows).2⟩
    | parts => .error (.crossedHourPartitions parts.length)

section Prepare

variable {c : Clustering} {rows : List Row}

/-- Under a clustering that has all tag columns the sort key is the primary
key. -/
theorem lastOf_pk_eq (hcov : ∀ r ∈ rows, c.covers r) {a : Row} (ha : c.covers a) :
    lastOf (Row.pk c) (a.pk c) rows = lastOf Row.key a.key rows := by
  unfold lastOf
  congr 1
  apply List.filter_congr
  intro r hr
  rw [decide_eq_decide]
  exact ⟨key_eq_of_pk_eq (hcov r hr) ha, pk_eq_of_key_eq⟩

theorem nodup_key_of_nodup_pk (h : (rows.map (Row.pk c)).Nodup) : (rows.map Row.key).Nodup := by
  rw [List.Nodup, List.pairwise_map] at h ⊢
  exact h.imp fun hne heq => hne (pk_eq_of_key_eq heq)

/-- What `prepare_ordered` keeps, before the split by hour. -/
theorem kept_spec (hcov : ∀ r ∈ rows, c.covers r) :
    ((sortKeepLast (Row.pk c) rows).map Row.key).Nodup ∧
      (sortKeepLast (Row.pk c) rows).Subperm rows ∧
      ∀ k, lastOf Row.key k (sortKeepLast (Row.pk c) rows) = lastOf Row.key k rows := by
  have hkept : ∀ r ∈ sortKeepLast (Row.pk c) rows, c.covers r :=
    fun r hr => hcov r (mem_of_mem_sortKeepLast hr)
  refine ⟨nodup_key_of_nodup_pk (nodup_sortKeepLast rows), subperm_sortKeepLast rows, ?_⟩
  intro k
  by_cases hex : ∃ a ∈ rows, a.key = k
  · obtain ⟨a, ha, rfl⟩ := hex
    rw [← lastOf_pk_eq hkept (hcov a ha), ← lastOf_pk_eq hcov (hcov a ha),
      lastOf_sortKeepLast _]
  · have hnone : ∀ r ∈ rows, r.key ≠ k := fun r hr heq => hex ⟨r, hr, heq⟩
    rw [lastOf_eq_none.mpr hnone, lastOf_eq_none]
    exact fun r hr => hnone r (mem_of_mem_sortKeepLast hr)

/-- One piece of a prepared batch: the rows of one hour, one for each primary
key, and for each primary key of the hour the last write of the batch. -/
structure PieceOf (rows : List Row) (hour : String) (piece : List Row) : Prop where
  nonempty : piece ≠ []
  inHour : ∀ r ∈ piece, r.hour = hour
  nodup : (piece.map Row.key).Nodup
  subperm : piece.Subperm rows
  last : ∀ k : RowKey, hourPartition k.1 = hour →
    lastOf Row.key k piece = lastOf Row.key k rows

theorem prepareOrdered_piece (hcov : ∀ r ∈ rows, c.covers r) {hour : String} {piece : List Row}
    (h : (hour, piece) ∈ prepareOrdered c rows) : PieceOf rows hour piece := by
  obtain ⟨hnodup, hsub, hlast⟩ := kept_spec hcov
  simp only [prepareOrdered, List.mem_map, List.mem_insertionSort, List.mem_dedup,
    Prod.mk.injEq] at h
  obtain ⟨_, ⟨r, hr, hhour⟩, rfl, rfl⟩ := h
  refine ⟨?_, ?_, ?_, ?_, ?_⟩
  · exact List.ne_nil_of_mem (List.mem_filter.mpr ⟨hr, by simpa using hhour⟩)
  · intro r hr
    simpa using (List.mem_filter.mp hr).2
  · exact hnodup.sublist (List.filter_sublist.map _)
  · exact List.filter_sublist.subperm.trans hsub
  · intro k hk
    rw [lastOf_filter, hlast]
    intro r _ hkey
    have hhour : r.hour = hourPartition k.1 := by rw [← hkey]; rfl
    simp [hhour, hk]

theorem prepareOrdered_hour (hcov : ∀ r ∈ rows, c.covers r) {r : Row} (hr : r ∈ rows) :
    ∃ piece, (r.hour, piece) ∈ prepareOrdered c rows := by
  obtain ⟨_, _, hlast⟩ := kept_spec hcov
  cases hl : lastOf Row.key r.key (sortKeepLast (Row.pk c) rows) with
  | none =>
      rw [hlast, lastOf_eq_none] at hl
      exact absurd rfl (hl r hr)
  | some a =>
      obtain ⟨ha, hkey⟩ := lastOf_mem hl
      have hhour : a.hour = r.hour := by
        rw [Row.hour, Row.hour, (Prod.mk.inj hkey).1]
      refine ⟨(sortKeepLast (Row.pk c) rows).filter fun x => x.hour = r.hour, ?_⟩
      simp only [prepareOrdered, List.mem_map, List.mem_insertionSort, List.mem_dedup]
      exact ⟨r.hour, ⟨a, ha, hhour⟩, rfl⟩

private theorem count_hours (kept : List Row) {hours : List String} (hnodup : hours.Nodup)
    (r : Row) :
    (hours.flatMap fun hour => kept.filter fun x => x.hour = hour).count r ≤
      if r.hour ∈ hours then kept.count r else 0 := by
  induction hours with
  | nil => simp
  | cons hour rest ih =>
      obtain ⟨hout, hrest⟩ := List.nodup_cons.mp hnodup
      rw [List.flatMap_cons, List.count_append]
      have htail := ih hrest
      by_cases hr : r.hour = hour
      · have hnone : r.hour ∉ rest := hr ▸ hout
        rw [if_neg hnone] at htail
        have hhead := (List.filter_sublist (p := fun x : Row => decide (x.hour = hour))
          (l := kept)).count_le r
        simp only [hr, List.mem_cons, true_or, if_true]
        omega
      · have hhead : (kept.filter fun x => x.hour = hour).count r = 0 := by
          rw [List.count_eq_zero]
          intro hmem
          exact hr (by simpa using (List.mem_filter.mp hmem).2)
        simp only [List.mem_cons, hr, false_or]
        omega

private theorem flatMap_prepareOrdered (c : Clustering) (rows : List Row) :
    (prepareOrdered c rows).flatMap Prod.snd =
      (((sortKeepLast (Row.pk c) rows).map Row.hour).dedup.insertionSort (· ≤ ·)).flatMap
        fun hour => (sortKeepLast (Row.pk c) rows).filter fun x => x.hour = hour := by
  simp only [prepareOrdered, List.flatMap_map]

/-- The pieces of a batch hold no row more often than the batch does. -/
theorem count_prepareOrdered (c : Clustering) (rows : List Row) (r : Row) :
    ((prepareOrdered c rows).flatMap Prod.snd).count r ≤ rows.count r := by
  have hnodup : (((sortKeepLast (Row.pk c) rows).map Row.hour).dedup.insertionSort
      (· ≤ ·)).Nodup :=
    (List.perm_insertionSort _ _).nodup_iff.mpr (List.nodup_dedup _)
  have hhours := count_hours (sortKeepLast (Row.pk c) rows) hnodup r
  have hkept : (sortKeepLast (Row.pk c) rows).count r ≤ rows.count r :=
    (subperm_sortKeepLast rows).count_le r
  rw [flatMap_prepareOrdered]
  refine hhours.trans ?_
  split
  · exact hkept
  · exact Nat.zero_le _

private theorem lastOf_hours (kept : List Row) (hours : List String) (k : RowKey) :
    lastOf Row.key k (hours.flatMap fun hour => kept.filter fun x => x.hour = hour) =
      if hourPartition k.1 ∈ hours then lastOf Row.key k kept else none := by
  have hour_of_key : ∀ r : Row, r.key = k → r.hour = hourPartition k.1 := by
    rintro r rfl
    rfl
  induction hours with
  | nil => rfl
  | cons hour rest ih =>
      rw [List.flatMap_cons, lastOf_append, ih]
      by_cases hhour : hourPartition k.1 = hour
      · have hpiece : lastOf Row.key k (kept.filter fun x => x.hour = hour) =
            lastOf Row.key k kept := by
          apply lastOf_filter
          intro r _ hkey
          simp [hour_of_key r hkey, hhour]
        rw [hpiece, if_pos (List.mem_cons.mpr (.inl hhour))]
        split <;> simp
      · have hpiece : lastOf Row.key k (kept.filter fun x => x.hour = hour) = none := by
          rw [lastOf_eq_none]
          intro r hr hkey
          have hin : r.hour = hour := by simpa using (List.mem_filter.mp hr).2
          exact hhour ((hour_of_key r hkey).symm.trans hin)
        simp [hpiece, hhour]

/-- The pieces of a batch hold, for each primary key, its last write. -/
theorem lastOf_prepareOrdered (hcov : ∀ r ∈ rows, c.covers r) (k : RowKey) :
    lastOf Row.key k ((prepareOrdered c rows).flatMap Prod.snd) = lastOf Row.key k rows := by
  rw [flatMap_prepareOrdered, lastOf_hours, ← (kept_spec hcov).2.2 k]
  split
  · rfl
  · next hout =>
      symm
      rw [lastOf_eq_none]
      rintro r hr rfl
      refine hout ?_
      rw [List.mem_insertionSort, List.mem_dedup]
      exact List.mem_map.mpr ⟨r, hr, rfl⟩

/-- A merge that succeeds holds one row for each primary key of its inputs, the
one the last input has. -/
theorem mergeFiles_piece {sets : List (List Row)} {m : Merged}
    (hcov : ∀ r ∈ sets.flatten, c.covers r) (h : mergeFiles c sets = .ok m) :
    ∃ hour, PieceOf sets.flatten hour m.rows ∧ ∀ r ∈ sets.flatten, r.hour = hour := by
  simp only [mergeFiles] at h
  split at h
  · cases h
  · split at h
    · next hour rows hparts =>
        obtain rfl := Except.ok.inj h
        refine ⟨hour, prepareOrdered_piece hcov (by simp [hparts]), ?_⟩
        intro r hr
        obtain ⟨piece, hpiece⟩ := prepareOrdered_hour hcov hr
        rw [hparts, List.mem_singleton] at hpiece
        exact congrArg Prod.fst hpiece
    · cases h

end Prepare

end TimeLake.Rows
