import TimeLake.Library.Groups
import TimeLake.Rows.Calendar

/-!
`flush::prepare_ordered` over the columns of a batch: which columns make the sort
key, the sort of the row positions, the loop that lets the last write replace the ones
before it, and the split by hour with `take`. Arrow compares the rows of a sort key
column by column, nulls first; a key is the list of its cells in that order.
-/

namespace TimeLake.Flush

open TimeLake.Library
open TimeLake.Rows (FieldValue hourPartition hourNs)

/-- The values of a column; `none` is a null. A dictionary column is the texts its
keys stand for. -/
inductive ColumnData where
  | timestamps (values : List Int64)
  | dictionary (cells : List (Option String))
  | plain (cells : List (Option FieldValue))
  deriving DecidableEq

def ColumnData.length : ColumnData → Nat
  | .timestamps values => values.length
  | .dictionary cells => cells.length
  | .plain cells => cells.length

def ColumnData.isDictionary : ColumnData → Bool
  | .dictionary _ => true
  | _ => false

/-- `take`: the values at the indices. -/
def ColumnData.take (indices : List Nat) : ColumnData → ColumnData
  | .timestamps values => .timestamps (indices.map fun i => values.getD i 0)
  | .dictionary cells => .dictionary (indices.map fun i => cells.getD i none)
  | .plain cells => .plain (indices.map fun i => cells.getD i none)

theorem ColumnData.length_take (indices : List Nat) (data : ColumnData) :
    (data.take indices).length = indices.length := by
  cases data <;> exact List.length_map _

structure Column where
  name : String
  data : ColumnData
  deriving DecidableEq

/-- A record batch. Its first column is the time, which has no nulls, and all its
columns have one length. -/
structure Batch where
  timeName : String
  times : List Int64
  others : List Column
  aligned : ∀ c ∈ others, c.data.length = times.length

def Batch.numRows (b : Batch) : Nat := b.times.length

def Batch.timeColumn (b : Batch) : Column := ⟨b.timeName, .timestamps b.times⟩

def Batch.columns (b : Batch) : List Column := b.timeColumn :: b.others

/-- `column_by_name`: the first column of the name. -/
def Batch.columnByName (b : Batch) (name : String) : Option Column :=
  b.columns.find? fun c => c.name = name

def Batch.time (b : Batch) (i : Nat) : Int64 := b.times.getD i 0

def Batch.take (b : Batch) (indices : List Nat) : Batch where
  timeName := b.timeName
  times := indices.map b.time
  others := b.others.map fun c => ⟨c.name, c.data.take indices⟩
  aligned := by
    intro c hc
    obtain ⟨d, _, rfl⟩ := List.mem_map.mp hc
    rw [ColumnData.length_take, List.length_map]

/-- The place of a value among the values of its type. -/
abbrev SortKey := ℕ ×ₗ ℤ ×ₗ String

/-- Floats in the total order of their bits. -/
def totalOrder (bits : UInt64) : Int :=
  if bits.toNat < 2 ^ 63 then bits.toNat else 2 ^ 63 - 1 - bits.toNat

def valueKey : FieldValue → SortKey
  | .float bits => toLex (0, toLex (totalOrder bits, ""))
  | .int x => toLex (1, toLex (x.toInt, ""))
  | .uint x => toLex (2, toLex ((x.toNat : Int), ""))
  | .bool x => toLex (3, toLex (if x then 1 else 0, ""))
  | .str s => toLex (4, toLex (0, s))

def textKey (s : String) : SortKey := toLex (5, toLex (0, s))

def timeKey (t : Int64) : SortKey := toLex (6, toLex (t.toInt, ""))

/-- The cell of a row in the sort key. -/
def ColumnData.sortKey (i : Nat) : ColumnData → WithBot SortKey
  | .timestamps values => (some (timeKey (values.getD i 0)) : Option SortKey)
  | .dictionary cells => ((cells.getD i none).map textKey : Option SortKey)
  | .plain cells => ((cells.getD i none).map valueKey : Option SortKey)

/-- The columns of the sort key: `leading`, if there is a column of that name, then
the time and every dictionary column that is not named so. -/
def pkCols (b : Batch) (leading : Option String) : List Column :=
  (leading.bind b.columnByName).toList ++
    b.timeColumn :: b.others.filter fun c => c.data.isDictionary && leading != some c.name

def sortRow (b : Batch) (leading : Option String) (i : Nat) : List (WithBot SortKey) :=
  (pkCols b leading).map fun c => c.data.sortKey i

/-- The positions that the last write of each key leaves, in the order of the keys. -/
def keptRows (b : Batch) (leading : Option String) : List Nat :=
  (sortPositions (sortRow b leading) b.numRows).foldl (replaceLast (sortRow b leading)) []

/-- `prepare_ordered`; the positions of a piece are kept as `u32`. -/
def prepareOrdered (b : Batch) (leading : Option String) : List (String × Batch) :=
  if b.numRows = 0 then []
  else
    let parts : List (String × List UInt32) :=
      groupInto (fun i => hourPartition (b.time i).toInt) UInt32.ofNat (keptRows b leading)
    parts.map fun p => (p.1, b.take (p.2.map UInt32.toNat))

/-- `prepare`: the time first. -/
def prepare (b : Batch) : List (String × Batch) := prepareOrdered b none

/-- Two rows agree on the primary key: the time and every dictionary column. -/
def Batch.SamePk (b : Batch) (i j : Nat) : Prop :=
  b.time i = b.time j ∧
    ∀ c ∈ b.others, ∀ cells, c.data = .dictionary cells → cells.getD i none = cells.getD j none

/-- No row behind this one has its primary key. -/
def Batch.IsLastWrite (b : Batch) (i : Nat) : Prop :=
  i < b.numRows ∧ ∀ j, i < j → j < b.numRows → ¬ b.SamePk j i

/-- The pieces are the last writes of the batch and nothing else, each of them in one
piece, a piece for each hour that has any, in the order of the hours. -/
def Partitions (b : Batch) (pieces : List (String × Batch)) : Prop :=
  ∃ parts : List (String × List Nat),
    pieces = parts.map (fun p => (p.1, b.take p.2)) ∧
      (∀ i, i ∈ parts.flatMap Prod.snd ↔ b.IsLastWrite i) ∧
      (parts.flatMap Prod.snd).Nodup ∧
      (∀ p ∈ parts, p.2 ≠ [] ∧ ∀ i ∈ p.2, p.1 = hourPartition (b.time i).toInt) ∧
      parts.Pairwise fun p q => p.1 < q.1 ∧
        ∀ i ∈ p.2, ∀ j ∈ q.2, (b.time i).toInt / hourNs < (b.time j).toInt / hourNs

/-- The column found under the name `leading`, if there is one, is part of the primary
key, and no other dictionary column has the name. -/
def Batch.LeadsByTag (b : Batch) (leading : Option String) : Prop :=
  ∀ name c, leading = some name → b.columnByName name = some c →
    b.others.filter (fun d => d.data.isDictionary && d.name == name) =
      if c = b.timeColumn then [] else [c]

section SortRow

variable {b : Batch} {leading : Option String} {i j : Nat}

theorem sortKey_timestamps (values : List Int64) :
    (ColumnData.timestamps values).sortKey i = (ColumnData.timestamps values).sortKey j ↔
      values.getD i 0 = values.getD j 0 := by
  constructor
  · intro h
    have hkey : timeKey (values.getD i 0) = timeKey (values.getD j 0) := Option.some.inj h
    have hpair := toLex.injective (congrArg Prod.snd (toLex.injective hkey))
    exact Int64.toInt_inj.mp (congrArg Prod.fst hpair)
  · intro h
    rw [ColumnData.sortKey, ColumnData.sortKey, h]

theorem sortKey_dictionary (cells : List (Option String)) :
    (ColumnData.dictionary cells).sortKey i = (ColumnData.dictionary cells).sortKey j ↔
      cells.getD i none = cells.getD j none := by
  have hinj : Function.Injective textKey := by
    intro s t h
    have hpair := toLex.injective (congrArg Prod.snd (toLex.injective h))
    exact congrArg Prod.snd hpair
  exact (Option.map_injective hinj).eq_iff

theorem isDictionary_iff {data : ColumnData} :
    data.isDictionary = true ↔ ∃ cells, data = .dictionary cells := by
  cases data <;> simp [ColumnData.isDictionary]

theorem mem_pkCols {c : Column} :
    c ∈ pkCols b leading ↔ leading.bind b.columnByName = some c ∨ c = b.timeColumn ∨
      (c ∈ b.others ∧ c.data.isDictionary = true ∧ leading ≠ some c.name) := by
  simp [pkCols]

/-- Under a column of the primary key in front, equal sort keys are equal primary
keys. -/
theorem sortRow_eq_iff (hlead : b.LeadsByTag leading) :
    sortRow b leading i = sortRow b leading j ↔ b.SamePk i j := by
  rw [sortRow, sortRow, List.map_inj_left]
  constructor
  · intro hcells
    refine ⟨(sortKey_timestamps b.times).mp (hcells b.timeColumn
        (mem_pkCols.mpr (.inr (.inl rfl)))),
      ?_⟩
    intro c hc cells hdata
    have hdict : c.data.isDictionary = true := isDictionary_iff.mpr ⟨cells, hdata⟩
    have hin : c ∈ pkCols b leading := by
      by_cases hname : leading = some c.name
      · have hfound : (b.columnByName c.name).isSome = true := by
          rw [Batch.columnByName, List.find?_isSome]
          exact ⟨c, List.mem_cons_of_mem _ hc, by simp⟩
        obtain ⟨d, hd⟩ := Option.isSome_iff_exists.mp hfound
        have hnamed : c ∈ b.others.filter fun e => e.data.isDictionary && e.name == c.name :=
          List.mem_filter.mpr ⟨hc, by simp [hdict]⟩
        rw [hlead c.name d hname hd] at hnamed
        split at hnamed
        · cases hnamed
        · obtain rfl := List.mem_singleton.mp hnamed
          exact mem_pkCols.mpr (.inl (by rw [hname, Option.bind_some, hd]))
      · exact mem_pkCols.mpr (.inr (.inr ⟨hc, hdict, hname⟩))
    have hcell := hcells c hin
    rw [hdata] at hcell
    exact (sortKey_dictionary cells).mp hcell
  · rintro ⟨htime, htags⟩ c hc
    have htimes : b.timeColumn.data.sortKey i = b.timeColumn.data.sortKey j :=
      (sortKey_timestamps b.times).mpr htime
    have htag : ∀ c ∈ b.others, c.data.isDictionary = true →
        c.data.sortKey i = c.data.sortKey j := by
      intro c hc hdict
      obtain ⟨cells, hdata⟩ := isDictionary_iff.mp hdict
      rw [hdata]
      exact (sortKey_dictionary cells).mpr (htags c hc cells hdata)
    rcases mem_pkCols.mp hc with hfound | rfl | ⟨hother, hdict, _⟩
    · obtain ⟨name, hname, hfound⟩ := Option.bind_eq_some_iff.mp hfound
      have hnamed := hlead name c hname hfound
      split at hnamed
      · next heq =>
          rw [heq]
          exact htimes
      · have hin := List.mem_filter.mp (hnamed ▸ List.mem_singleton_self c)
        exact htag c hin.1 (by simpa using And.left (Bool.and_eq_true_iff.mp hin.2))
    · exact htimes
    · exact htag c hother hdict

/-- What the loop keeps is the last write of each primary key. -/
theorem mem_keptRows (hlead : b.LeadsByTag leading) :
    i ∈ keptRows b leading ↔ b.IsLastWrite i := by
  rw [keptRows, foldl_replaceLast, mem_keepLast_sortPositions, Batch.IsLastWrite]
  simp only [ne_eq, sortRow_eq_iff hlead]

theorem nodup_keptRows : (keptRows b leading).Nodup := by
  rw [keptRows, foldl_replaceLast]
  exact nodup_keepLast_sortPositions

end SortRow

section Pieces

variable {b : Batch} {leading : Option String}

theorem isI64_toInt (t : Int64) : IsI64 t.toInt := ⟨t.le_toInt, t.toInt_lt⟩

theorem u32_roundtrip {i : Nat} (hi : i < 2 ^ 32) : (UInt32.ofNat i).toNat = i := by
  rw [UInt32.toNat_ofNat', Nat.mod_eq_of_lt hi]

/-- Over at most `2^32` rows no position is cut. -/
theorem pieces_eq (hrows : b.numRows ≤ 2 ^ 32) (hlead : b.LeadsByTag leading) :
    prepareOrdered b leading =
      (groupInto (fun i => hourPartition (b.time i).toInt) id (keptRows b leading)).map
        fun p => (p.1, b.take p.2) := by
  have hgroups : groupInto (fun i => hourPartition (b.time i).toInt) id (keptRows b leading) =
      (groupInto (fun i => hourPartition (b.time i).toInt) UInt32.ofNat (keptRows b leading)).map
        fun p => (p.1, p.2.map UInt32.toNat) := by
    rw [map_groupInto]
    apply groupInto_congr
    intro i hi
    exact (u32_roundtrip (lt_of_lt_of_le ((mem_keptRows hlead).mp hi).1 hrows)).symm
  rw [hgroups, prepareOrdered, List.map_map]
  split
  · next hzero =>
      have hnone : keptRows b leading = [] := by
        rw [List.eq_nil_iff_forall_not_mem]
        intro i hi
        have := ((mem_keptRows hlead).mp hi).1
        omega
      rw [hnone]
      rfl
  · rfl

/-- **Partitioning.** Of a batch of at most `2^32` rows, each row that is the last
write of its key goes into the batch of the UTC hour of its time, and into no
other; the batches come in the order of their hours. -/
theorem prepare_ordered_partitions (b : Batch) (leading : Option String)
    (hrows : b.numRows ≤ 2 ^ 32) (hlead : b.LeadsByTag leading) :
    Partitions b (prepareOrdered b leading) := by
  refine ⟨_, pieces_eq hrows hlead, ?_, ?_, ?_, ?_⟩
  · intro i
    rw [mem_flatMap_groupInto, ← mem_keptRows hlead]
    simp
  · apply nodup_flatMap_groupInto
    rw [List.map_id]
    exact nodup_keptRows
  · rintro ⟨hour, rows⟩ hpiece
    refine ⟨(mem_groupInto.mp hpiece).1, ?_⟩
    intro i hi
    obtain ⟨j, _, hhour, rfl⟩ := exists_of_mem_group hpiece hi
    exact hhour.symm
  · refine (Increasing.groupInto (keptRows b leading)).imp_of_mem ?_
    rintro ⟨hour, rows⟩ ⟨hour', rows'⟩ hpiece hpiece' hlt
    refine ⟨hlt, ?_⟩
    intro i hi j hj
    obtain ⟨i, _, hhour, rfl⟩ := exists_of_mem_group hpiece hi
    obtain ⟨j, _, hhour', rfl⟩ := exists_of_mem_group hpiece' hj
    dsimp only [id]
    rw [← Rows.hourPartition_lt_iff (isI64_toInt _) (isI64_toInt _), hhour, hhour']
    exact hlt

/-- Two writes of one key, and a second key without the tag. -/
def taggedBatch : Batch where
  timeName := "time"
  times := [0, 0, 0]
  others := [⟨"host", .dictionary [some "a", none, some "a"]⟩,
    ⟨"v", .plain [some (.int 1), some (.int 2), some (.int 3)]⟩]
  aligned := by simp [ColumnData.length]

example : (prepareOrdered taggedBatch (some "host")).map (fun p => p.2.others) =
    [[⟨"host", .dictionary [none, some "a"]⟩, ⟨"v", .plain [some (.int 2), some (.int 3)]⟩]] := by
  decide +kernel

theorem tagged_batch_partitions :
    taggedBatch.numRows ≤ 2 ^ 32 ∧ taggedBatch.LeadsByTag (some "host") ∧
      Partitions taggedBatch (prepareOrdered taggedBatch (some "host")) := by
  have hlead : taggedBatch.LeadsByTag (some "host") := by
    intro name c hname hfound
    obtain rfl := Option.some.inj hname
    have hc : c = ⟨"host", .dictionary [some "a", none, some "a"]⟩ :=
      (Option.some.inj hfound).symm
    rw [hc]
    rfl
  exact ⟨by decide, hlead, prepare_ordered_partitions _ _ (by decide) hlead⟩

theorem rows_of_parts (b : Batch) (parts : List (String × List Nat)) :
    ((parts.map fun p => (p.1, b.take p.2)).map fun p => p.2.numRows).sum =
      (parts.flatMap Prod.snd).length := by
  induction parts with
  | nil => rfl
  | cons p rest ih =>
      rw [List.map_cons, List.map_cons, List.sum_cons, ih, List.flatMap_cons, List.length_append,
        Batch.numRows, Batch.take, List.length_map]

/-- Two writes of one key with two values. -/
def fieldBatch : Batch where
  timeName := "time"
  times := [0, 0]
  others := [⟨"v", .plain [some (.int 1), some (.int 2)]⟩]
  aligned := by simp [ColumnData.length]

/-- Sorted by a field in front the two writes of one key are both kept. -/
theorem field_in_front_keeps_both :
    ¬ ∀ (b : Batch) (leading : Option String), Partitions b (prepareOrdered b leading) := by
  intro hall
  obtain ⟨parts, hpieces, hmem, hnodup, _, _⟩ := hall fieldBatch (some "v")
  have hrows : ((prepareOrdered fieldBatch (some "v")).map fun p => p.2.numRows).sum = 2 := by
    decide +kernel
  rw [hpieces, rows_of_parts] at hrows
  have hlast : ∀ i ∈ parts.flatMap Prod.snd, i = 1 := by
    intro i hi
    obtain ⟨hlt, hnone⟩ := (hmem i).mp hi
    have hlt : i < 2 := hlt
    by_contra hne
    obtain rfl : i = 0 := by omega
    refine hnone 1 (by decide) (by decide) ⟨rfl, ?_⟩
    intro c hc cells hdata
    obtain rfl := List.mem_singleton.mp hc
    cases hdata
  have hsub : parts.flatMap Prod.snd ⊆ [1] := fun i hi => List.mem_singleton.mpr (hlast i hi)
  have hle := (List.subperm_of_subset hnodup hsub).length_le
  rw [hrows] at hle
  exact absurd hle (by decide)

end Pieces

end TimeLake.Flush
