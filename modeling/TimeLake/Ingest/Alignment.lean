import TimeLake.Ingest.Columns
import TimeLake.Library.Decimal

/-!
What holds of the columns after any appends to an empty buffer. They are aligned, no
value is interned twice, and a refused line leaves them alone. Every row reads back as
its line gave it if and only if no row needs a value that was interned as number 2^31
or later: the key of such a value is negative, or that of another value.
-/

namespace TimeLake.Columns

open TimeLake.Library TimeLake.Rows
open TimeLake.Ingest (FloatOps ParsedLine FieldCol Established TypeConflict
  Types admitFields typesOf
  stored)

section Runs

/-- An append to the buffer, beside the lines it has accepted. -/
def step (fl : FloatOps) (s : TableBuffer × List ParsedLine) (a : ParsedLine × Established) :
    TableBuffer × List ParsedLine :=
  match s.1.append fl a.1 a.2 with
  | (b, .ok ()) => (b, s.2 ++ [a.1])
  | (b, .error _) => (b, s.2)

def run (fl : FloatOps) (appends : List (ParsedLine × Established)) :
    TableBuffer × List ParsedLine := appends.foldl (step fl) (.empty, [])

/-- The buffer holds these lines: a cell for each of them in every column, the last value
of a repeated key, a null where the line gives none. -/
structure Holds (fl : FloatOps) (b : TableBuffer) (lines : List ParsedLine) : Prop where
  times : b.times = lines.map ParsedLine.timestampNs
  tagRows : ∀ p ∈ b.tags, p.2.keys.length = b.rowCount
  fieldRows : ∀ p ∈ b.fields, p.2.cells.length = b.rowCount
  interned : ∀ p ∈ b.tags, p.2.values.Nodup
  keys : ∀ p ∈ b.tags, ∀ k, some k ∈ p.2.keys → (p.2.valueOf k).isSome
  tags : ∀ i line, lines[i]? = some line → ∀ name, b.tagAt name i = line.tags.reverse.lookup name
  fields : ∀ i line, lines[i]? = some line → ∀ name,
    b.fieldAt name i = stored fl (typesOf b.fields) line.fields name
  refused : ∀ line established e b', b.append fl line established = (b', .error e) → b' = b

/-- The lines the type rules admit, one after the other. -/
def admitted : Types → List (ParsedLine × Established) → List ParsedLine
  | _, [] => []
  | types, (line, established) :: rest =>
      match admitFields established types line.fields with
      | some types => line :: admitted types rest
      | none => admitted types rest

/-- The values given for a tag, each once, in the order they came. -/
def dictionary (lines : List ParsedLine) (name : String) : List String :=
  intern [] (valuesAt (lines.flatMap ParsedLine.tags) name)

/-- No row needs a value beyond the first 2^31. -/
def KeysFit (lines : List ParsedLine) : Prop :=
  ∀ line ∈ lines, ∀ name v, line.tags.reverse.lookup name = some v →
    (dictionary lines name).idxOf v < 2 ^ 31

/-- A line is refused before anything is touched. -/
theorem append_error {fl : FloatOps} {b b' : TableBuffer} {line : ParsedLine}
    {established : Established} {e : TypeConflict}
    (h : b.append fl line established = (b', .error e)) : b' = b := by
  unfold TableBuffer.append at h
  split at h
  · exact (Prod.mk.inj h).1.symm
  · next hcheck =>
      have haccept := (Ingest.validate_iff established b.fields [] line.fields).mp hcheck
      rw [List.append_nil, Option.isSome_iff_exists] at haccept
      obtain ⟨types, htypes⟩ := haccept
      obtain ⟨columns, hpush, _⟩ := Ingest.pushFields_spec fl b.times.length htypes
      simp only [hpush] at h
      cases (Prod.mk.inj h).2

end Runs

section Tables

open Ingest.TableBuffer (pushTag)

/-- The interned values of a column. -/
def tableAt (tags : List (String × Ingest.TagCol)) (name : String) : List String :=
  ((tags.lookup name).map Ingest.TagCol.values).getD []

theorem values_push (c : Ingest.TagCol) (v : String) :
    (c.push v).values = addName c.values v := by
  unfold Ingest.TagCol.push
  split
  · next k hk =>
      have hmem := List.mem_of_getElem? ((c.interned v k).mp hk)
      rw [addName, if_pos hmem]
  · next hk =>
      have hout : v ∉ c.values := by
        intro hmem
        obtain ⟨k, hget⟩ := List.getElem?_of_mem hmem
        rw [(c.interned v k).mpr hget] at hk
        cases hk
      rw [addName, if_neg hout]

theorem nodup_values (c : Ingest.TagCol) : c.values.Nodup := by
  rw [List.nodup_iff_getElem?_ne_getElem?]
  intro i j hij hj heq
  have hget : c.values[j]? = some c.values[j] := List.getElem?_eq_getElem hj
  have hi := (c.interned _ i).mpr (heq.trans hget)
  rw [(c.interned _ j).mpr hget] at hi
  exact absurd (Option.some.inj hi) (by omega)

theorem tableAt_pushTag (n : Nat) (tags : List (String × Ingest.TagCol)) (p : String × String)
    (name : String) : tableAt (pushTag n tags p) name =
      if name = p.1 then addName (tableAt tags name) p.2 else tableAt tags name := by
  unfold tableAt pushTag
  rw [lookup_upsert]
  by_cases hname : name = p.1
  · subst hname
    rw [if_pos rfl, if_pos rfl, Option.map_some, Option.getD_some, values_push]
    cases tags.lookup p.1 <;> rfl
  · rw [if_neg hname, if_neg hname]

theorem tableAt_foldl_pushTag (n : Nat) (pairs : List (String × String))
    (tags : List (String × Ingest.TagCol)) (name : String) :
    tableAt (pairs.foldl (pushTag n) tags) name =
        intern (tableAt tags name) (valuesAt pairs name) := by
  induction pairs generalizing tags with
  | nil => rfl
  | cons p rest ih =>
      rw [List.foldl_cons, ih, tableAt_pushTag, valuesAt_cons]
      by_cases hname : p.1 = name
      · rw [if_pos hname.symm, if_pos hname]
        rfl
      · rw [if_neg (Ne.symm hname), if_neg hname]

theorem tableAt_pad (n : Nat) (tags : List (String × Ingest.TagCol)) (name : String) :
    tableAt (tags.map fun p => (p.1, p.2.pad n)) name = tableAt tags name := by
  unfold tableAt
  rw [lookup_map_snd fun _ (col : Ingest.TagCol) => col.pad n, Option.map_map]
  congr 2
  funext col
  simp only [Function.comp_apply, Ingest.TagCol.pad]
  split <;> rfl

theorem dictionary_concat (lines : List ParsedLine) (line : ParsedLine) (name : String) :
    dictionary (lines ++ [line]) name =
        intern (dictionary lines name) (valuesAt line.tags name) := by
  rw [dictionary, List.flatMap_append, valuesAt_append, intern_append, List.flatMap_singleton,
    dictionary]

end Tables

section Kept

variable {fl : FloatOps}

/-- The columns without a bound on the keys, after the lines they have accepted. -/
structure Kept (fl : FloatOps) (m : Ingest.TableBuffer) (lines : List ParsedLine) : Prop where
  wf : m.Wf
  rows : m.rows = lines.map (ParsedLine.row fl (typesOf m.fields))
  typed : ∀ line ∈ lines, ∀ p ∈ line.fields, ((typesOf m.fields).lookup p.1).isSome
  tables : ∀ name, tableAt m.tags name = dictionary lines name

theorem Kept.empty : Kept fl .empty [] :=
  ⟨Ingest.TableBuffer.wf_empty, rfl, fun _ h => absurd h List.not_mem_nil, fun _ => rfl⟩

theorem row_congr {types types' : Types} {line : ParsedLine}
    (h : ∀ p ∈ line.fields, types'.lookup p.1 = types.lookup p.1) :
    line.row fl types' = line.row fl types := by
  have hfields : (line.fields.map fun p =>
        (p.1, ((types'.lookup p.1).getD (Ingest.valueType p.2)).store fl p.2)) =
      line.fields.map fun p =>
        (p.1, ((types.lookup p.1).getD (Ingest.valueType p.2)).store fl p.2) :=
    List.map_congr_left fun p hp => by rw [h p hp]
  rw [ParsedLine.row, ParsedLine.row, hfields]

theorem tags_append {m m' : Ingest.TableBuffer} {line : ParsedLine} {established : Established}
    (h : m.append fl line established = (m', .ok ())) :
    m'.tags = (line.tags.foldl (Ingest.TableBuffer.pushTag m.times.length) m.tags).map
      fun p => (p.1, p.2.pad (m.times.length + 1)) := by
  unfold Ingest.TableBuffer.append at h
  split at h
  · cases (Prod.mk.inj h).2
  · simp only at h
    split at h
    · cases (Prod.mk.inj h).2
    · rw [← (Prod.mk.inj h).1]
      rfl

theorem Kept.append {m : Ingest.TableBuffer} {lines : List ParsedLine} (h : Kept fl m lines)
    {line : ParsedLine} {established : Established} {types : Types}
    (haccept : admitFields established (typesOf m.fields) line.fields = some types) :
    ∃ m', m.append fl line established = (m', .ok ()) ∧ Kept fl m' (lines ++ [line]) ∧
      typesOf m'.fields = types := by
  have hspec := Ingest.append_spec fl established h.wf line
  rw [haccept] at hspec
  obtain ⟨m', hrun, hwf, htypes, _, hrows⟩ := hspec
  have hkeep : ∀ l ∈ lines, ∀ p ∈ l.fields,
      types.lookup p.1 = (typesOf m.fields).lookup p.1 := by
    intro l hl p hp
    obtain ⟨ty, hty⟩ := Option.isSome_iff_exists.mp (h.typed l hl p hp)
    rw [hty, Ingest.admitFields_keeps haccept hty]
  refine ⟨m', hrun, ⟨hwf, ?_, ?_, fun name => ?_⟩, htypes⟩
  · rw [hrows, h.rows, htypes, List.map_append, List.map_singleton]
    congr 1
    exact List.map_congr_left fun l hl => (row_congr (hkeep l hl)).symm
  · intro l hl p hp
    rw [htypes]
    rcases List.mem_append.mp hl with hl | hl
    · rw [hkeep l hl p hp]
      exact h.typed l hl p hp
    · obtain rfl := List.mem_singleton.mp hl
      obtain ⟨ty, hty, _⟩ := Ingest.admitFields_accepts haccept hp
      rw [hty]
      rfl
  · rw [tags_append hrun, tableAt_pad, tableAt_foldl_pushTag, h.tables, dictionary_concat]

/-- A run on the stored columns is one on the columns without a bound. -/
theorem run_kept {b : TableBuffer} {m : Ingest.TableBuffer} {lines : List ParsedLine}
    (hcast : BufferCasts b m) (h : Kept fl m lines) (appends : List (ParsedLine × Established)) :
    ∃ m', BufferCasts (appends.foldl (step fl) (b, lines)).1 m' ∧
      Kept fl m' (appends.foldl (step fl) (b, lines)).2 ∧
      (appends.foldl (step fl) (b, lines)).2 = lines ++ admitted (typesOf m.fields) appends := by
  induction appends generalizing b m lines with
  | nil => exact ⟨m, hcast, h, (List.append_nil lines).symm⟩
  | cons a rest ih =>
      obtain ⟨line, established⟩ := a
      obtain ⟨hnext, hsame⟩ := hcast.append fl line established
      rw [List.foldl_cons, step, admitted]
      generalize hb : b.append fl line established = r at hnext hsame
      obtain ⟨b', result⟩ := r
      cases haccept : admitFields established (typesOf m.fields) line.fields with
      | some types =>
          obtain ⟨m', hrun, hkept, htypes⟩ := h.append haccept
          rw [hrun] at hnext hsame
          obtain rfl : result = .ok () := hsame
          obtain ⟨m'', hcast', hkept', hlines⟩ := ih hnext hkept
          refine ⟨m'', hcast', hkept', ?_⟩
          simp only [hlines, htypes, List.append_assoc, List.singleton_append]
      | none =>
          have hspec := Ingest.append_spec fl established h.wf line
          rw [haccept] at hspec
          obtain ⟨e, hrun⟩ := hspec
          rw [hrun] at hnext hsame
          obtain rfl : result = .error e := hsame
          exact ih hnext h

theorem Kept.rowAt {m : Ingest.TableBuffer} {lines : List ParsedLine} (h : Kept fl m lines)
    {i : Nat} {line : ParsedLine} (hi : lines[i]? = some line) :
    m.rowAt i = line.row fl (typesOf m.fields) := by
  have hrow : m.rows[i]? = some (line.row fl (typesOf m.fields)) := by
    rw [h.rows, List.getElem?_map, hi]
    rfl
  rw [Ingest.TableBuffer.rows, List.getElem?_map, Option.map_eq_some_iff] at hrow
  obtain ⟨j, hj, hrow⟩ := hrow
  obtain ⟨_, rfl⟩ := List.getElem?_eq_some_iff.mp hj
  rwa [List.getElem_range] at hrow

theorem Kept.length {m : Ingest.TableBuffer} {lines : List ParsedLine} (h : Kept fl m lines) :
    m.times.length = lines.length := by
  have hlen := congrArg List.length h.rows
  rwa [Ingest.TableBuffer.rows, List.length_map, List.length_map, List.length_range] at hlen

theorem Kept.times {m : Ingest.TableBuffer} {lines : List ParsedLine} (h : Kept fl m lines) :
    m.times = lines.map ParsedLine.timestampNs := by
  apply List.ext_getElem
  · rw [List.length_map, h.length]
  · intro i hi hi'
    rw [List.length_map] at hi'
    have htime := congrArg Row.time (h.rowAt (List.getElem?_eq_getElem hi'))
    have hget : m.times.getD i 0 = m.times[i] := by simp [hi]
    rw [Ingest.TableBuffer.rowAt, hget] at htime
    rw [List.getElem_map]
    exact htime

theorem Kept.tagAt {m : Ingest.TableBuffer} {lines : List ParsedLine} (h : Kept fl m lines)
    {i : Nat} {line : ParsedLine} (hi : lines[i]? = some line) (name : String) :
    Ingest.TableBuffer.tagAt m.tags name i = line.tags.reverse.lookup name := by
  rw [← h.wf.get_rowAt, h.rowAt hi, ParsedLine.row, TagSet.get, Ingest.tagSet, lookup_collect]

theorem Kept.fieldAt {m : Ingest.TableBuffer} {lines : List ParsedLine} (h : Kept fl m lines)
    {i : Nat} {line : ParsedLine} (hi : lines[i]? = some line) (name : String) :
    Ingest.TableBuffer.fieldAt m.fields name i =
      stored fl (typesOf m.fields) line.fields name := by
  rw [← h.wf.lookup_rowAt, h.rowAt hi, ParsedLine.row, lookup_collect, ← List.map_reverse, stored,
    lookup_map_snd fun k v =>
      (((typesOf m.fields).lookup k).getD (Ingest.valueType v)).store fl v]

end Kept

section Keys

variable {fl : FloatOps} {m : Ingest.TableBuffer} {lines : List ParsedLine}

theorem getElem?_cells (col : Ingest.TagCol) (i : Nat) :
    col.cells[i]?.join = col.keys[i]?.join.bind (col.values[·]?) := by
  rw [Ingest.TagCol.cells, List.getElem?_map]
  cases col.keys[i]? <;> rfl

theorem idxOf_eq (col : Ingest.TagCol) {k : Nat} {v : String} (h : col.values[k]? = some v) :
    col.values.idxOf v = k := by
  have hlt : col.values.idxOf v < col.values.length :=
    List.idxOf_lt_length_iff.mpr (List.mem_of_getElem? h)
  have hget : col.values[col.values.idxOf v]? = some v := by
    rw [List.getElem?_eq_getElem hlt, List.getElem_idxOf hlt]
  have hidx := (col.interned v _).mpr hget
  rw [(col.interned v k).mpr h] at hidx
  exact (Option.some.inj hidx).symm

/-- The key of a row is the place of its value in the dictionary. -/
theorem Kept.key (h : Kept fl m lines) {name : String} {col : Ingest.TagCol}
    (hcol : m.tags.lookup name = some col) {i k : Nat} {line : ParsedLine}
    (hi : lines[i]? = some line) (hk : col.keys[i]?.join = some k) :
    ∃ v, line.tags.reverse.lookup name = some v ∧ col.values[k]? = some v ∧
      (dictionary lines name).idxOf v = k := by
  have hmem : some k ∈ col.keys := by
    cases hget : col.keys[i]? with
    | none =>
        rw [hget] at hk
        cases hk
    | some c =>
        rw [hget] at hk
        obtain rfl : c = some k := hk
        exact List.mem_of_getElem? hget
  have hlt := col.stored k hmem
  have hvalue : col.values[k]? = some col.values[k] := List.getElem?_eq_getElem hlt
  have htag := h.tagAt hi name
  rw [Ingest.TableBuffer.tagAt, hcol, Option.bind_some, getElem?_cells, hk, Option.bind_some,
    hvalue] at htag
  have htable := h.tables name
  rw [tableAt, hcol, Option.map_some, Option.getD_some] at htable
  refine ⟨col.values[k], htag.symm, hvalue, ?_⟩
  rw [← htable]
  exact idxOf_eq col hvalue

theorem Casts.valueOf {c : TagCol} {col : Ingest.TagCol} (h : Casts c col) {k : Nat}
    (hk : k < 2 ^ 31) : c.valueOf (asI32 k) = col.values[k]? := by
  rw [asI32_of_lt hk, TagCol.valueOf, if_pos (Int.natCast_nonneg k), Int.toNat_natCast, h.values]

/-- A key that points at its value has not wrapped around. -/
theorem Casts.lt_of_valueOf {c : TagCol} {col : Ingest.TagCol} (h : Casts c col) {k : Nat}
    {v : String} (hk : col.values[k]? = some v) (hv : c.valueOf (asI32 k) = some v) :
    k < 2 ^ 31 := by
  rw [TagCol.valueOf] at hv
  split at hv
  · next hpos =>
      rw [h.values] at hv
      have hsame := (idxOf_eq col hv).symm.trans (idxOf_eq col hk)
      have hlt := asI32_lt k
      omega
  · cases hv

theorem Casts.getElem?_keys {c : TagCol} {col : Ingest.TagCol} (h : Casts c col) (i : Nat) :
    c.keys[i]?.join = col.keys[i]?.join.map asI32 := by
  rw [h.keys, List.getElem?_map]
  cases col.keys[i]? <;> rfl

theorem Kept.key_lt (h : Kept fl m lines) (hfit : KeysFit lines) {name : String}
    {col : Ingest.TagCol} (hcol : m.tags.lookup name = some col) {i k : Nat}
    (hk : col.keys[i]?.join = some k) : k < 2 ^ 31 ∧ k < col.values.length := by
  have hrow : i < lines.length := by
    have hrows : col.keys.length = m.times.length := h.wf.tagRows _ (mem_of_lookup hcol)
    rw [h.length] at hrows
    by_contra hge
    rw [List.getElem?_eq_none (by omega)] at hk
    cases hk
  obtain ⟨v, hv, hvalue, hidx⟩ := h.key hcol (List.getElem?_eq_getElem hrow) hk
  have hlt := hfit _ (List.getElem_mem hrow) name v hv
  rw [hidx] at hlt
  exact ⟨hlt, (List.getElem?_eq_some_iff.mp hvalue).1⟩

variable {b : TableBuffer}

theorem BufferCasts.tagAt (hcast : BufferCasts b m) (h : Kept fl m lines) (hfit : KeysFit lines)
    (name : String) (i : Nat) : b.tagAt name i = Ingest.TableBuffer.tagAt m.tags name i := by
  rw [TableBuffer.tagAt, Ingest.TableBuffer.tagAt]
  have hrel := hcast.tags.lookup name
  cases hm : m.tags.lookup name with
  | none =>
      rw [hm] at hrel
      cases hc : b.tags.lookup name with
      | none => rfl
      | some c =>
          rw [hc] at hrel
          cases hrel
  | some col =>
      rw [hm] at hrel
      cases hc : b.tags.lookup name with
      | none =>
          rw [hc] at hrel
          cases hrel
      | some c =>
          rw [hc] at hrel
          cases hrel with
          | some hcol =>
              rw [Option.bind_some, Option.bind_some, hcol.getElem?_keys, getElem?_cells]
              cases hk : col.keys[i]?.join with
              | none => rfl
              | some k =>
                  rw [Option.map_some, Option.bind_some, Option.bind_some,
                    hcol.valueOf (h.key_lt hfit hm hk).1]

theorem BufferCasts.valueOf (hcast : BufferCasts b m) (h : Kept fl m lines) (hfit : KeysFit lines)
    {p : String × TagCol} (hp : p ∈ b.tags) {k : Int} (hk : some k ∈ p.2.keys) :
    (p.2.valueOf k).isSome := by
  obtain ⟨q, hq, _, hcol⟩ := hcast.tags.exists_of_mem hp
  have hlook : m.tags.lookup q.1 = some q.2 := (lookup_eq_some_of_nodup h.wf.tagNames).mpr hq
  rw [hcol.keys, List.mem_map] at hk
  obtain ⟨j, hj, hkj⟩ := hk
  obtain ⟨n, rfl, rfl⟩ := Option.map_eq_some_iff.mp hkj
  obtain ⟨i, hi⟩ := List.getElem?_of_mem hj
  obtain ⟨hlt, hlen⟩ := h.key_lt hfit hlook (i := i) (k := n) (by rw [hi]; rfl)
  rw [hcol.valueOf hlt, List.getElem?_eq_getElem hlen]
  rfl

/-- A row that reads back has a key that has not wrapped around. -/
theorem keysFit_of_tags (hcast : BufferCasts b m) (h : Kept fl m lines)
    (htags : ∀ i line, lines[i]? = some line → ∀ name,
      b.tagAt name i = line.tags.reverse.lookup name) : KeysFit lines := by
  intro line hline name v hv
  obtain ⟨i, hi⟩ := List.getElem?_of_mem hline
  have htag := (h.tagAt hi name).trans hv
  rw [Ingest.TableBuffer.tagAt] at htag
  obtain ⟨col, hcol, hcell⟩ := Option.bind_eq_some_iff.mp htag
  rw [getElem?_cells] at hcell
  obtain ⟨k, hk, _⟩ := Option.bind_eq_some_iff.mp hcell
  obtain ⟨w, hw, hvalue, hidx⟩ := h.key hcol hi hk
  rw [hv] at hw
  obtain rfl := Option.some.inj hw
  rw [hidx]
  have hread := (htags i line hi name).trans hv
  rw [TableBuffer.tagAt] at hread
  obtain ⟨c, hc, hcell'⟩ := Option.bind_eq_some_iff.mp hread
  have hrel := hcast.tags.lookup name
  rw [hc, hcol] at hrel
  cases hrel with
  | some hrel =>
      rw [hrel.getElem?_keys, hk, Option.map_some, Option.bind_some] at hcell'
      exact hrel.lt_of_valueOf hvalue hcell'

/-- The stored columns hold the lines if and only if the keys fit. -/
theorem holds_iff (hcast : BufferCasts b m) (h : Kept fl m lines) :
    Holds fl b lines ↔ KeysFit lines := by
  refine ⟨fun hholds => keysFit_of_tags hcast h hholds.tags, fun hfit => ?_⟩
  constructor
  · rw [hcast.times, h.times]
  · intro p hp
    obtain ⟨q, hq, _, hcol⟩ := hcast.tags.exists_of_mem hp
    rw [hcol.keys, List.length_map, h.wf.tagRows q hq, TableBuffer.rowCount, hcast.times]
  · intro p hp
    rw [hcast.fields] at hp
    rw [h.wf.fieldRows p hp, TableBuffer.rowCount, hcast.times]
  · intro p hp
    obtain ⟨q, _, _, hcol⟩ := hcast.tags.exists_of_mem hp
    rw [hcol.values]
    exact nodup_values q.2
  · exact fun p hp k hk => hcast.valueOf h hfit hp hk
  · intro i line hi name
    rw [hcast.tagAt h hfit, h.tagAt hi]
  · intro i line hi name
    rw [TableBuffer.fieldAt, hcast.fields, h.fieldAt hi]
  · exact fun _ _ _ _ => append_error

end Keys

section Appends

/-- After any appends to an empty buffer: the columns hold the accepted lines if and
only if no row needs a value of its tag beyond the first 2^31. -/
theorem appended_holds_iff (fl : FloatOps) (appends : List (ParsedLine × Established)) :
    Holds fl (run fl appends).1 (run fl appends).2 ↔ KeysFit (admitted [] appends) := by
  have hempty : BufferCasts .empty .empty := ⟨rfl, .nil, rfl⟩
  obtain ⟨m, hcast, hkept, hlines⟩ := run_kept hempty (Kept.empty : Kept fl .empty []) appends
  rw [List.nil_append] at hlines
  rw [run, holds_iff hcast hkept, hlines]
  rfl

/-- Lines that give a tag the numbers up to `n`. -/
def numbered (n : Nat) : List (ParsedLine × Established) :=
  (List.range n).map fun i =>
    (⟨"m", [("h", String.ofList (padNat 0 i))], [("v", .bool true)], 0⟩, fun _ => none)

theorem admitted_numbered (n : Nat) {types : Types} (h : types = [] ∨ types = [("v", .bool)]) :
    admitted types (numbered n) = (numbered n).map Prod.fst := by
  have haccept : ∀ types : Types, types = [] ∨ types = [("v", .bool)] →
      admitFields (fun _ => none) types [("v", .bool true)] = some [("v", .bool)] := by
    rintro types (rfl | rfl) <;> rfl
  unfold numbered
  induction List.range n generalizing types with
  | nil => rfl
  | cons i rest ih =>
      rw [List.map_cons, List.map_cons, admitted]
      simp only [haccept types h, ih (.inr rfl)]

theorem dictionary_numbered (n : Nat) :
    dictionary ((numbered n).map Prod.fst) "h" =
      (List.range n).map fun i => String.ofList (padNat 0 i) := by
  have hvalues : valuesAt (((numbered n).map Prod.fst).flatMap ParsedLine.tags) "h" =
      (List.range n).map fun i => String.ofList (padNat 0 i) := by
    unfold numbered
    induction List.range n with
    | nil => rfl
    | cons i rest ih =>
        rw [List.map_cons, List.map_cons, List.flatMap_cons, valuesAt_append, ih]
        rfl
  have hnodup : ((List.range n).map fun i => String.ofList (padNat 0 i)).Nodup := by
    refine List.Nodup.map (fun i j heq => ?_) List.nodup_range
    exact padNat_injective 0 (String.ofList_injective heq)
  rw [dictionary, hvalues, intern_of_nodup (by simpa using hnodup), List.nil_append]

theorem not_keysFit_numbered {n : Nat} (hn : 2 ^ 31 ≤ n) :
    ¬KeysFit (admitted [] (numbered (n + 1))) := by
  rw [admitted_numbered _ (.inl rfl)]
  intro hfit
  have hline : (⟨"m", [("h", String.ofList (padNat 0 n))], [("v", .bool true)], 0⟩ : ParsedLine) ∈
      (numbered (n + 1)).map Prod.fst := by
    refine List.mem_map.mpr ⟨_, List.mem_map.mpr ⟨n, ?_, rfl⟩, rfl⟩
    exact List.mem_range.mpr (Nat.lt_succ_self n)
  have hidx := hfit _ hline "h" (String.ofList (padNat 0 n)) rfl
  have hlast : ((List.range (n + 1)).map fun i => String.ofList (padNat 0 i)).idxOf
      (String.ofList (padNat 0 n)) = n := by
    have hout : String.ofList (padNat 0 n) ∉
        (List.range n).map fun i => String.ofList (padNat 0 i) := by
      intro hmem
      obtain ⟨i, hi, heq⟩ := List.mem_map.mp hmem
      have hin := padNat_injective 0 (String.ofList_injective heq)
      exact absurd (List.mem_range.mp hi) (by omega)
    rw [List.range_succ, List.map_append, List.idxOf_append_of_notMem hout]
    simp
  rw [dictionary_numbered, hlast] at hidx
  omega

/-- The key of the value after 2^31 others is negative: its row does not read back. -/
theorem key_wraps_around :
    ¬Holds ⟨fun _ => none, fun _ => 0, fun _ => 0⟩
      (run ⟨fun _ => none, fun _ => 0, fun _ => 0⟩ (numbered (2 ^ 31 + 1))).1
      (run ⟨fun _ => none, fun _ => 0, fun _ => 0⟩ (numbered (2 ^ 31 + 1))).2 := by
  intro hholds
  have hempty : BufferCasts .empty .empty := ⟨rfl, .nil, rfl⟩
  have hnone : Kept ⟨fun _ => none, fun _ => 0, fun _ => 0⟩ .empty [] := Kept.empty
  obtain ⟨m, hcast, hkept, hlines⟩ := run_kept hempty hnone (numbered (2 ^ 31 + 1))
  rw [List.nil_append] at hlines
  have hfit := (holds_iff hcast hkept).mp hholds
  rw [hlines] at hfit
  exact not_keysFit_numbered (Nat.le_refl _) hfit

end Appends

end TimeLake.Columns
