import TimeLake.Ingest.LineProtocol
import TimeLake.Library.Pairs
import TimeLake.Library.AssocMap

/-!
`TableBuffer` of `crates/buffer`: one vector of times and one column for each
tag and each field, a tag column interned. `append` checks every field of a
line before it touches a column; a column the line does not mention is padded
afterwards. A column of the model carries its own invariant: the keys of a tag
column are indices of interned values, and the cells of a field column have
the column's type.

`rows` reads the columns back as rows. `append_spec` says that an append adds
the row of the line at the end and changes no other, and which lines it
refuses.
-/

namespace TimeLake.Ingest

open TimeLake.Library TimeLake.Rows

/-- The tags a line gives, the last value of a repeated name. -/
def tagSet (pairs : List (String × String)) : TagSet := ⟨collect pairs, Increasing.collect pairs⟩

section Cells

variable {α : Type*}

/-- `Vec::resize(n, None)`. -/
def resize (n : Nat) (cells : List (Option α)) : List (Option α) :=
  cells.take n ++ List.replicate (n - cells.length) none

@[simp] theorem length_resize (n : Nat) (cells : List (Option α)) :
    (resize n cells).length = n := by
  simp only [resize, List.length_append, List.length_take, List.length_replicate]
  omega

theorem mem_resize {n : Nat} {cells : List (Option α)} {x : α} (h : some x ∈ resize n cells) :
    some x ∈ cells := by
  simp only [resize, List.mem_append, List.mem_replicate, reduceCtorEq, and_false, or_false] at h
  exact List.mem_of_mem_take h

end Cells

section TagCol

/-- An interned tag column. -/
structure TagCol where
  intern : AssocMap String Nat
  values : List String
  keys : List (Option Nat)
  interned : ∀ v k, intern.lookup v = some k ↔ values[k]? = some v
  stored : ∀ k, some k ∈ keys → k < values.length

namespace TagCol

def empty : TagCol := ⟨∅, [], [], by simp, by simp⟩

def padTo (c : TagCol) (n : Nat) : TagCol where
  intern := c.intern
  values := c.values
  keys := resize n c.keys
  interned := c.interned
  stored := fun k h => c.stored k (mem_resize h)

theorem interned_insert (c : TagCol) {v : String} (h : c.intern.lookup v = none) (w : String)
    (k : Nat) : (c.intern.insert v c.values.length).lookup w = some k ↔
      (c.values ++ [v])[k]? = some w := by
  rw [List.getElem?_append]
  by_cases hw : w = v
  · subst hw
    have hout : ∀ k : Nat, c.values[k]? ≠ some w := fun k hk => by
      rw [(c.interned w k).mpr hk] at h
      cases h
    rw [AList.lookup_insert]
    split
    · next hlt =>
        simp only [Option.some.injEq, hout k, iff_false]
        omega
    · next hge =>
        constructor
        · rintro heq
          obtain rfl := Option.some.inj heq
          simp
        · intro heq
          have := (List.getElem?_eq_some_iff.mp heq).1
          simp only [List.length_cons, List.length_nil] at this
          rw [Option.some.injEq]
          omega
  · rw [AList.lookup_insert_ne hw, c.interned]
    split
    · rfl
    · next hge =>
        have hnone : c.values[k]? = none := List.getElem?_eq_none (by omega)
        rw [hnone]
        simp [List.getElem?_cons, Ne.symm hw]

theorem stored_concat {values : List String} {keys : List (Option Nat)} {j : Nat}
    (h : ∀ k, some k ∈ keys → k < values.length) (hj : j < values.length) (k : Nat)
    (hk : some k ∈ keys ++ [some j]) : k < values.length := by
  rcases List.mem_append.mp hk with hk | hk
  · exact h k hk
  · obtain rfl : k = j := by simpa using hk
    exact hj

/-- The key of an interned value, or a new one. -/
def push (c : TagCol) (v : String) : TagCol :=
  match h : c.intern.lookup v with
  | some k =>
      ⟨c.intern, c.values, c.keys ++ [some k], c.interned,
        stored_concat c.stored (List.getElem?_eq_some_iff.mp ((c.interned v k).mp h)).1⟩
  | none =>
      ⟨c.intern.insert v c.values.length, c.values ++ [v], c.keys ++ [some c.values.length],
        c.interned_insert h,
        stored_concat (fun k hk => by simpa using Nat.lt_succ_of_lt (c.stored k hk)) (by simp)⟩

/-- `if c.keys.len() < n { c.keys.push(None) }`. -/
def pad (c : TagCol) (n : Nat) : TagCol :=
  if c.keys.length < n then
    { c with
      keys := c.keys ++ [none]
      stored := fun k hk => c.stored k (by simpa using hk) }
  else c

/-- The column as a snapshot shows it. -/
def cells (c : TagCol) : List (Option String) :=
  c.keys.map fun k => k.bind (c.values[·]?)

@[simp] theorem length_cells (c : TagCol) : c.cells.length = c.keys.length := by simp [cells]

@[simp] theorem cells_empty : empty.cells = [] := rfl

@[simp] theorem cells_padTo (c : TagCol) (n : Nat) : (c.padTo n).cells = resize n c.cells := by
  simp [cells, padTo, resize, List.map_take]

@[simp] theorem cells_push (c : TagCol) (v : String) : (c.push v).cells = c.cells ++ [some v] := by
  unfold push
  split
  · next k h => simp [cells, (c.interned v k).mp h]
  · next h =>
      simp only [cells, List.map_append, List.map_cons, List.map_nil, Option.bind_some]
      congr 1
      · apply List.map_congr_left
        rintro (_ | k) hk
        · rfl
        · simp only [Option.bind_some]
          rw [List.getElem?_append_left (c.stored k hk)]
      · simp

theorem cells_pad {c : TagCol} {n : Nat} :
    (c.pad n).cells = if c.cells.length < n then c.cells ++ [none] else c.cells := by
  rw [length_cells]
  unfold pad
  split <;> simp [cells]

end TagCol

end TagCol

section FieldCol

inductive FieldType where
  | f64 | i64 | u64 | bool | str
  deriving DecidableEq, Repr

def valueType : FieldValue → FieldType
  | .float _ => .f64
  | .int _ => .i64
  | .uint _ => .u64
  | .bool _ => .bool
  | .str _ => .str

/-- `FieldCol::accepts`: integers are promoted into float columns. -/
def FieldType.accepts : FieldType → FieldValue → Bool
  | .f64, .float _ | .f64, .int _ | .f64, .uint _ => true
  | .i64, .int _ => true
  | .u64, .uint _ => true
  | .bool, .bool _ => true
  | .str, .str _ => true
  | _, _ => false

/-- The value `push` stores, where the column accepts it. -/
def FieldType.store (fl : FloatOps) : FieldType → FieldValue → FieldValue
  | .f64, .int x => .float (fl.ofInt x)
  | .f64, .uint x => .float (fl.ofUInt x)
  | _, v => v

theorem valueType_store (fl : FloatOps) {ty : FieldType} {v : FieldValue} (h : ty.accepts v) :
    valueType (ty.store fl v) = ty := by
  cases ty <;> cases v <;> first | rfl | cases h

/-- A stored value tells which type its column has. -/
theorem eq_of_store_eq {fl : FloatOps} {a b : FieldType} {v : FieldValue} (ha : a.accepts v)
    (hb : b.accepts v) (h : a.store fl v = b.store fl v) : a = b := by
  rw [← valueType_store fl ha, h, valueType_store fl hb]

structure FieldCol where
  ty : FieldType
  cells : List (Option FieldValue)
  typed : ∀ v, some v ∈ cells → valueType v = ty

namespace FieldCol

def new (ty : FieldType) : FieldCol := ⟨ty, [], by simp⟩

def padTo (c : FieldCol) (n : Nat) : FieldCol :=
  ⟨c.ty, resize n c.cells, fun v hv => c.typed v (mem_resize hv)⟩

theorem typed_concat (c : FieldCol) {x : FieldValue} (hx : valueType x = c.ty) (v : FieldValue)
    (hv : some v ∈ c.cells ++ [some x]) : valueType v = c.ty := by
  rcases List.mem_append.mp hv with hv | hv
  · exact c.typed v hv
  · obtain rfl : v = x := by simpa using hv
    exact hx

def pushed (fl : FloatOps) (c : FieldCol) (v : FieldValue) (h : c.ty.accepts v) : FieldCol :=
  ⟨c.ty, c.cells ++ [some (c.ty.store fl v)], c.typed_concat (valueType_store fl h)⟩

/-- `FieldCol::push`; `none` is the type conflict. -/
def push (fl : FloatOps) (c : FieldCol) (v : FieldValue) : Option FieldCol :=
  if h : c.ty.accepts v then some (c.pushed fl v h) else none

end FieldCol

end FieldCol

/-- The Arrow types a column can have here. -/
inductive DataType where
  | timestamp
  | dictionary
  | float64
  | int64
  | uint64
  | boolean
  | utf8
  | largeUtf8
  deriving DecidableEq, Repr

/-- `col_for_datatype`: the type a column was established with. -/
def colForDatatype : DataType → Option FieldType
  | .float64 => some .f64
  | .int64 => some .i64
  | .uint64 => some .u64
  | .boolean => some .bool
  | .utf8 | .largeUtf8 | .dictionary => some .str
  | .timestamp => none

def FieldType.dataType : FieldType → DataType
  | .f64 => .float64
  | .i64 => .int64
  | .u64 => .uint64
  | .bool => .boolean
  | .str => .utf8

structure TypeConflict where
  column : String
  value : FieldValue
  deriving DecidableEq

/-- The registry's types of one table, by column name. -/
abbrev Established := String → Option DataType

/-- The type of a column that is not there yet. -/
def newType (established : Established) (name : String) (v : FieldValue) : FieldType :=
  ((established name).bind colForDatatype).getD (valueType v)

structure TableBuffer where
  times : List Int
  tags : List (String × TagCol)
  fields : List (String × FieldCol)

namespace TableBuffer

def empty : TableBuffer := ⟨[], [], []⟩

def rowCount (b : TableBuffer) : Nat := b.times.length

/-- The check of every field, against the column it would land in and against
the columns the same line is about to create. -/
def validate (columns : List (String × FieldCol)) (established : Established) :
    List (String × FieldType) → List (String × FieldValue) → Except TypeConflict Unit
  | _, [] => .ok ()
  | pending, (k, v) :: rest =>
      match columns.lookup k with
      | some col =>
          if col.ty.accepts v then validate columns established pending rest
          else .error ⟨k, v⟩
      | none =>
          match pending.lookup k with
          | some ty =>
              if ty.accepts v then validate columns established pending rest
              else .error ⟨k, v⟩
          | none =>
              let ty := newType established k v
              if ty.accepts v then validate columns established (pending ++ [(k, ty)]) rest
              else .error ⟨k, v⟩

/-- A tag value of row `n`; a key repeated inside the line overwrites. -/
def pushTag (n : Nat) (tags : List (String × TagCol)) (p : String × String) :
    List (String × TagCol) :=
  upsert p.1 (fun col => ((col.getD .empty).padTo n).push p.2) tags

/-- The field values of row `n`, up to one its column refuses. -/
def pushFields (fl : FloatOps) (established : Established) (n : Nat) :
    List (String × FieldCol) → List (String × FieldValue) →
      List (String × FieldCol) × Except TypeConflict Unit
  | columns, [] => (columns, .ok ())
  | columns, (k, v) :: rest =>
      let col := ((columns.lookup k).getD (.new (newType established k v))).padTo n
      match col.push fl v with
      | some col => pushFields fl established n (upsert k (fun _ => col) columns) rest
      | none => (upsert k (fun _ => col) columns, .error ⟨k, v⟩)

/-- The end of a row: its time, and a null in every column it did not mention. -/
def closeRow (times : List Int) (tags : List (String × TagCol)) (fields : List (String × FieldCol))
    (timestampNs : Int) : TableBuffer :=
  let n := times.length + 1
  ⟨times ++ [timestampNs], tags.map fun p => (p.1, p.2.pad n),
    fields.map fun p => (p.1, p.2.padTo n)⟩

/-- `TableBuffer::append`. -/
def append (fl : FloatOps) (b : TableBuffer) (line : ParsedLine) (established : Established) :
    TableBuffer × Except TypeConflict Unit :=
  match validate b.fields established [] line.fields with
  | .error e => (b, .error e)
  | .ok () =>
      let n := b.times.length
      let tags := line.tags.foldl (pushTag n) b.tags
      match pushFields fl established n b.fields line.fields with
      | (fields, .error e) => ({ b with tags := tags, fields := fields }, .error e)
      | (fields, .ok ()) => (closeRow b.times tags fields line.timestampNs, .ok ())

/-- The tag and the field columns have one cell for each row and distinct
names. -/
structure Wf (b : TableBuffer) : Prop where
  tagNames : (b.tags.map Prod.fst).Nodup
  fieldNames : (b.fields.map Prod.fst).Nodup
  tagRows : ∀ p ∈ b.tags, p.2.keys.length = b.times.length
  fieldRows : ∀ p ∈ b.fields, p.2.cells.length = b.times.length

/-- What a column shows in row `i`; a column that is not there shows a null. -/
def tagAt (tags : List (String × TagCol)) (name : String) (i : Nat) : Option String :=
  (tags.lookup name).bind fun col => col.cells[i]?.join

def fieldAt (fields : List (String × FieldCol)) (name : String) (i : Nat) : Option FieldValue :=
  (fields.lookup name).bind fun col => col.cells[i]?.join

/-- Row `i` of a snapshot: time, tags, fields, without the nulls. -/
def rowAt (b : TableBuffer) (i : Nat) : Row where
  time := b.times.getD i 0
  tags := tagSet (b.tags.filterMap fun p => (p.2.cells[i]?.join).map (p.1, ·))
  fields := collect (b.fields.filterMap fun p => (p.2.cells[i]?.join).map (p.1, ·))
  arrival := 0

/-- The rows of a snapshot in the order they arrived. -/
def rows (b : TableBuffer) : List Row := (List.range b.times.length).map b.rowAt

end TableBuffer

/-- The field columns of a buffer with their types, in the order they came. -/
abbrev Types := List (String × FieldType)

def typesOf (fields : List (String × FieldCol)) : Types := fields.map fun p => (p.1, p.2.ty)

/-- The type a value for a column meets. -/
def resolve (established : Established) (types : Types) (name : String) (v : FieldValue) :
    FieldType :=
  (types.lookup name).getD (newType established name v)

/-- The type rules of one line: the columns after its fields, if every value is
accepted. -/
def admitFields (established : Established) : Types → List (String × FieldValue) → Option Types
  | types, [] => some types
  | types, (k, v) :: rest =>
      let ty := resolve established types k v
      if ty.accepts v then admitFields established (upsert k (fun _ => ty) types) rest else none

/-- The tag columns after a line. -/
def addTags (names : List String) (tags : List (String × String)) : List String :=
  tags.foldl (fun names p => addName names p.1) names

/-- The row a line becomes in columns of these types. -/
def ParsedLine.row (fl : FloatOps) (types : Types) (line : ParsedLine) : Row where
  time := line.timestampNs
  tags := tagSet line.tags
  fields := collect (line.fields.map fun p =>
    (p.1, ((types.lookup p.1).getD (valueType p.2)).store fl p.2))
  arrival := 0

section Append

variable {fl : FloatOps} {established : Established}

theorem lookup_typesOf (fields : List (String × FieldCol)) (name : String) :
    (typesOf fields).lookup name = (fields.lookup name).map FieldCol.ty :=
  lookup_map_snd (fun _ col => FieldCol.ty col) fields name

/-- Types once set are kept. -/
theorem admitFields_keeps {types types' : Types} {fields : List (String × FieldValue)}
    (h : admitFields established types fields = some types') {k : String} {ty : FieldType}
    (hk : types.lookup k = some ty) : types'.lookup k = some ty := by
  induction fields generalizing types with
  | nil =>
      obtain rfl := Option.some.inj h
      exact hk
  | cons p rest ih =>
      obtain ⟨j, v⟩ := p
      simp only [admitFields] at h
      split at h
      · refine ih h ?_
        rw [lookup_upsert]
        by_cases hj : k = j
        · subst hj
          rw [if_pos rfl, resolve, hk, Option.getD_some]
        · rw [if_neg hj, hk]
      · cases h

/-- Every field of an admitted line has a column that accepts it. -/
theorem admitFields_accepts {types types' : Types} {fields : List (String × FieldValue)}
    (h : admitFields established types fields = some types') {p : String × FieldValue}
    (hp : p ∈ fields) : ∃ ty, types'.lookup p.1 = some ty ∧ ty.accepts p.2 := by
  induction fields generalizing types with
  | nil => cases hp
  | cons q rest ih =>
      obtain ⟨j, v⟩ := q
      simp only [admitFields] at h
      split at h
      · next hacc =>
          rcases List.mem_cons.mp hp with rfl | hp
          · exact ⟨_, admitFields_keeps h (by rw [lookup_upsert, if_pos rfl]), hacc⟩
          · exact ih h hp
      · cases h

/-- The check sees the columns of the buffer, then those the line has created. -/
theorem validate_iff (established : Established) (columns : List (String × FieldCol))
    (pending : Types)
    (fields : List (String × FieldValue)) :
    TableBuffer.validate columns established pending fields = .ok () ↔
      (admitFields established (typesOf columns ++ pending) fields).isSome := by
  induction fields generalizing pending with
  | nil => simp [TableBuffer.validate, admitFields]
  | cons p rest ih =>
      obtain ⟨k, v⟩ := p
      simp only [TableBuffer.validate, admitFields]
      cases hcol : columns.lookup k with
      | some col =>
          have hty : (typesOf columns ++ pending).lookup k = some col.ty := by
            simp [List.lookup_append, lookup_typesOf, hcol]
          simp only [resolve, hty, Option.getD_some]
          split
          · rw [upsert_self hty]
            exact ih pending
          · simp
      | none =>
          have hty : (typesOf columns ++ pending).lookup k = pending.lookup k := by
            simp [List.lookup_append, lookup_typesOf, hcol]
          simp only [resolve, hty]
          cases hpend : pending.lookup k with
          | some ty =>
              simp only [Option.getD_some]
              split
              · rw [upsert_self (hty.trans hpend)]
                exact ih pending
              · simp
          | none =>
              simp only [Option.getD_none]
              split
              · rw [upsert_of_none (hty.trans hpend), List.append_assoc]
                exact ih _
              · simp

open TableBuffer

private theorem getElem?_resize {α : Type*} {n i : Nat} {cells : List (Option α)} (hi : i < n) :
    ((resize n cells)[i]?).join = (cells[i]?).join := by
  rw [resize, List.getElem?_append]
  split
  · rw [List.getElem?_take_of_lt hi]
  · next h =>
      rw [List.length_take] at h
      rw [List.getElem?_eq_none (l := cells) (by omega)]
      cases hpad : (List.replicate (n - cells.length) none)[i - (List.take n cells).length]? with
      | none => rfl
      | some x =>
          rw [(List.mem_replicate.mp (List.mem_of_getElem? hpad)).2]
          rfl

private theorem getElem?_resize_concat {α : Type*} {n i : Nat} {cells : List (Option α)}
    {c : Option α} (hi : i < n) :
    ((resize n cells ++ [c])[i]?).join = (cells[i]?).join := by
  rw [List.getElem?_append_left (by simpa using hi), getElem?_resize hi]

private theorem getElem?_resize_last {α : Type*} {n : Nat} {cells : List (Option α)}
    {c : Option α} : ((resize n cells ++ [c])[n]?).join = c := by
  rw [List.getElem?_append_right (by simp)]
  simp

theorem tagAt_pushTag (n : Nat) (tags : List (String × TagCol)) (p : String × String)
    (name : String) :
    (∀ i < n, tagAt (pushTag n tags p) name i = tagAt tags name i) ∧
      tagAt (pushTag n tags p) name n = if name = p.1 then some p.2 else tagAt tags name n := by
  unfold tagAt pushTag
  rw [lookup_upsert]
  by_cases hname : name = p.1
  · subst hname
    simp only [if_true, Option.bind_some, TagCol.cells_push, TagCol.cells_padTo]
    refine ⟨fun i hi => ?_, getElem?_resize_last⟩
    rw [getElem?_resize_concat hi]
    cases tags.lookup p.1 <;> simp
  · simp [hname]

theorem tagAt_foldl_pushTag (n : Nat) (pairs : List (String × String))
    (tags : List (String × TagCol)) (name : String) :
    (∀ i < n, tagAt (pairs.foldl (pushTag n) tags) name i = tagAt tags name i) ∧
      tagAt (pairs.foldl (pushTag n) tags) name n =
        (pairs.reverse.lookup name).or (tagAt tags name n) := by
  induction pairs generalizing tags with
  | nil => simp
  | cons p rest ih =>
      obtain ⟨hbefore, hat⟩ := ih (pushTag n tags p)
      obtain ⟨hbefore', hat'⟩ := tagAt_pushTag n tags p name
      refine ⟨fun i hi => (hbefore i hi).trans (hbefore' i hi), ?_⟩
      rw [List.foldl_cons, hat, hat', List.reverse_cons, List.lookup_append, lookup_cons_eq_ite,
        List.lookup_nil, Option.or_assoc]
      split <;> rfl

theorem keys_foldl_pushTag (n : Nat) (pairs : List (String × String))
    (tags : List (String × TagCol)) :
    (pairs.foldl (pushTag n) tags).map Prod.fst = addTags (tags.map Prod.fst) pairs := by
  induction pairs generalizing tags with
  | nil => rfl
  | cons p rest ih => rw [List.foldl_cons, ih, pushTag, keys_upsert, addTags,
    addTags, List.foldl_cons]

/-- In the middle of row `n` a column has its cell already or not yet. -/
def MidRow (n : Nat) (tags : List (String × TagCol)) : Prop :=
  (tags.map Prod.fst).Nodup ∧
    ∀ p ∈ tags, p.2.keys.length = n ∨ p.2.keys.length = n + 1

theorem MidRow.foldl_pushTag {n : Nat} {tags : List (String × TagCol)} (h : MidRow n tags)
    (pairs : List (String × String)) : MidRow n (pairs.foldl (pushTag n) tags) := by
  induction pairs generalizing tags with
  | nil => exact h
  | cons p rest ih =>
      refine ih ⟨nodup_keys_upsert h.1, ?_⟩
      intro q hq
      rcases mem_upsert hq with hq | ⟨c, hc⟩
      · exact h.2 q hq
      · right
        rw [hc, ← TagCol.length_cells]
        simp

/-- What a row's field shows: the last value given, as its column stores it. -/
def stored (fl : FloatOps) (types : Types) (fields : List (String × FieldValue)) (name : String) :
    Option FieldValue :=
  (fields.reverse.lookup name).map fun v => ((types.lookup name).getD (valueType v)).store fl v

theorem fieldAt_upsert (columns : List (String × FieldCol)) {n : Nat} {k : String} {col : FieldCol}
    {v : FieldValue} (new : FieldCol) (hcol : ∀ i < n, (col.cells[i]?).join = fieldAt columns k i)
    (hnew : new.cells = resize n col.cells ++ [some v]) (name : String) :
    (∀ i < n, fieldAt (upsert k (fun _ => new) columns) name i = fieldAt columns name i) ∧
      fieldAt (upsert k (fun _ => new) columns) name n =
        if name = k then some v else fieldAt columns name n := by
  by_cases hname : name = k
  · subst hname
    have hlook : (upsert name (fun _ => new) columns).lookup name = some new := by
      rw [lookup_upsert, if_pos rfl]
    refine ⟨fun i hi => ?_, ?_⟩
    · rw [← hcol i hi, fieldAt, hlook, Option.bind_some, hnew, getElem?_resize_concat hi]
    · rw [fieldAt, hlook, Option.bind_some, hnew, getElem?_resize_last, if_pos rfl]
  · simp [fieldAt, lookup_upsert, hname]

/-- Admitted fields are all pushed: no column refuses its value. -/
theorem pushFields_spec (fl : FloatOps) (n : Nat) {columns : List (String × FieldCol)}
    {fields : List (String × FieldValue)} {types : Types}
    (h : admitFields established (typesOf columns) fields = some types) :
    ∃ columns', pushFields fl established n columns fields = (columns', .ok ()) ∧
      typesOf columns' = types ∧
      ((columns.map Prod.fst).Nodup → (columns'.map Prod.fst).Nodup) ∧
      ∀ name, (∀ i < n, fieldAt columns' name i = fieldAt columns name i) ∧
        fieldAt columns' name n = (stored fl types fields name).or (fieldAt columns name n) := by
  induction fields generalizing columns with
  | nil => exact ⟨columns, rfl, Option.some.inj h, id, fun name => ⟨fun _ _ => rfl, rfl⟩⟩
  | cons p rest ih =>
      obtain ⟨k, v⟩ := p
      simp only [admitFields] at h
      split at h
      · next hacc =>
          have hty : ((columns.lookup k).getD (.new (newType established k v))).ty =
              resolve established (typesOf columns) k v := by
            cases hl : columns.lookup k <;> simp [resolve, lookup_typesOf, hl, FieldCol.new]
          generalize hcol : (columns.lookup k).getD (.new (newType established k v)) = col at hty
          have hfits : (col.padTo n).ty.accepts v = true := hty ▸ hacc
          have hpush : (col.padTo n).push fl v = some ((col.padTo n).pushed fl v hfits) :=
            dif_pos hfits
          obtain ⟨columns', hrun, htypes, hnodup, hat⟩ :=
            @ih (upsert k (fun _ => (col.padTo n).pushed fl v hfits) columns) (by
              rw [typesOf, map_upsert FieldCol.ty]
              exact hty ▸ h)
          have hbase : ∀ i < n, (col.cells[i]?).join = fieldAt columns k i := by
            intro i _
            cases hl : columns.lookup k with
            | none =>
                rw [hl, Option.getD_none] at hcol
                simp [fieldAt, hl, ← hcol, FieldCol.new]
            | some c =>
                rw [hl, Option.getD_some] at hcol
                rw [fieldAt, hl, hcol, Option.bind_some]
          refine ⟨columns', ?_, htypes, fun hn => hnodup (nodup_keys_upsert hn), ?_⟩
          · simp only [pushFields, hcol, hpush]
            exact hrun
          · intro name
            obtain ⟨hbefore, hlast⟩ := hat name
            obtain ⟨hbefore', hlast'⟩ :=
              fieldAt_upsert columns ((col.padTo n).pushed fl v hfits) hbase rfl name
            refine ⟨fun i hi => (hbefore i hi).trans (hbefore' i hi), ?_⟩
            rw [hlast, hlast', stored, stored, List.reverse_cons, List.lookup_append,
              lookup_cons_eq_ite, List.lookup_nil]
            cases rest.reverse.lookup name with
            | some w => simp
            | none =>
                by_cases hname : name = k
                · subst hname
                  have hset : types.lookup name = some col.ty :=
                    admitFields_keeps h (by rw [lookup_upsert, if_pos rfl, hty])
                  simp [hset, FieldCol.padTo]
                · simp [hname]
      · cases h

theorem TableBuffer.Wf.get_rowAt {b : TableBuffer} (h : b.Wf) (i : Nat) (name : String) :
    (b.rowAt i).tags.get name = tagAt b.tags name i := by
  rw [rowAt, TagSet.get, tagSet, lookup_collect,
    lookup_reverse (nodup_keys_filterMap_snd (fun col : TagCol => col.cells[i]?.join) h.tagNames),
    lookup_filterMap_snd (fun col : TagCol => col.cells[i]?.join) h.tagNames, tagAt]

theorem TableBuffer.Wf.lookup_rowAt {b : TableBuffer} (h : b.Wf) (i : Nat) (name : String) :
    (b.rowAt i).fields.lookup name = fieldAt b.fields name i := by
  rw [rowAt, lookup_collect,
    lookup_reverse
      (nodup_keys_filterMap_snd (fun col : FieldCol => col.cells[i]?.join) h.fieldNames),
    lookup_filterMap_snd (fun col : FieldCol => col.cells[i]?.join) h.fieldNames, fieldAt]

theorem TableBuffer.Wf.rowAt_eq {b : TableBuffer} (h : b.Wf) {i : Nat} {r : Row}
    (htime : b.times.getD i 0 = r.time) (htags : ∀ name, tagAt b.tags name i = r.tags.get name)
    (hsorted : Increasing r.fields)
    (hfields : ∀ name, fieldAt b.fields name i = r.fields.lookup name) (harrival : r.arrival = 0) :
    b.rowAt i = r := by
  have hrowTags : (b.rowAt i).tags = r.tags :=
    TagSet.ext_get fun name => (h.get_rowAt i name).trans (htags name)
  have hrowFields : (b.rowAt i).fields = r.fields :=
    Increasing.ext (Increasing.collect _) hsorted fun name =>
      (h.lookup_rowAt i name).trans (hfields name)
  cases r
  simp only at htime hrowTags hrowFields harrival
  rw [rowAt] at hrowTags hrowFields ⊢
  simp only at hrowTags hrowFields
  rw [htime, hrowTags, hrowFields, harrival]

theorem tagAt_pad (n : Nat) (tags : List (String × TagCol)) (name : String) (i : Nat) :
    tagAt (tags.map fun p => (p.1, p.2.pad n)) name i = tagAt tags name i := by
  rw [tagAt, lookup_map_snd fun _ (col : TagCol) => col.pad n, tagAt]
  cases tags.lookup name with
  | none => rfl
  | some col =>
      simp only [Option.map_some, Option.bind_some, TagCol.cells_pad]
      split
      · rw [List.getElem?_append]
        split
        · rfl
        · next h =>
            rw [List.getElem?_eq_none (l := col.cells) (by omega), List.getElem?_cons]
            split <;> simp
      · rfl

theorem fieldAt_padTo {n : Nat} (fields : List (String × FieldCol)) (name : String) {i : Nat}
    (hi : i < n) :
    fieldAt (fields.map fun p => (p.1, p.2.padTo n)) name i = fieldAt fields name i := by
  rw [fieldAt, lookup_map_snd fun _ (col : FieldCol) => col.padTo n, fieldAt]
  cases fields.lookup name with
  | none => rfl
  | some col =>
      simp only [Option.map_some, Option.bind_some, FieldCol.padTo]
      exact getElem?_resize hi

theorem TableBuffer.Wf.tagAt_end {b : TableBuffer} (h : b.Wf) (name : String) :
    tagAt b.tags name b.times.length = none := by
  rw [tagAt]
  cases hl : b.tags.lookup name with
  | none => rfl
  | some col =>
      have hlen := h.tagRows _ (mem_of_lookup hl)
      rw [Option.bind_some, List.getElem?_eq_none (by simp [hlen])]
      rfl

theorem TableBuffer.Wf.fieldAt_end {b : TableBuffer} (h : b.Wf) (name : String) :
    fieldAt b.fields name b.times.length = none := by
  rw [fieldAt]
  cases hl : b.fields.lookup name with
  | none => rfl
  | some col =>
      have hlen := h.fieldRows _ (mem_of_lookup hl)
      rw [Option.bind_some, List.getElem?_eq_none (by simp [hlen])]
      rfl

theorem closeRow_wf {times : List Int} {tags : List (String × TagCol)}
    {fields : List (String × FieldCol)} (hmid : MidRow times.length tags)
    (hnames : (fields.map Prod.fst).Nodup) (ts : Int) : (closeRow times tags fields ts).Wf where
  tagNames := by simpa [closeRow, Function.comp_def] using hmid.1
  fieldNames := by simpa [closeRow, Function.comp_def] using hnames
  tagRows := by
    intro p hp
    obtain ⟨q, hq, rfl⟩ := List.mem_map.mp hp
    rcases hmid.2 q hq with hlen | hlen
    · simp [closeRow, TagCol.pad, hlen]
    · simp [closeRow, TagCol.pad, hlen]
  fieldRows := by
    intro p hp
    obtain ⟨q, hq, rfl⟩ := List.mem_map.mp hp
    simp [closeRow, FieldCol.padTo]

theorem typesOf_closeRow (times : List Int) (tags : List (String × TagCol))
    (fields : List (String × FieldCol)) (ts : Int) :
    typesOf (closeRow times tags fields ts).fields = typesOf fields := by
  simp only [typesOf, closeRow, List.map_map]
  rfl

/-- A closed row reads back as the line's, the rows before it as they were. -/
theorem rows_closeRow {b : TableBuffer} (h : b.Wf) {tags : List (String × TagCol)}
    {fields : List (String × FieldCol)} {types : Types} {line : ParsedLine}
    (hwf : (closeRow b.times tags fields line.timestampNs).Wf)
    (htags : ∀ name, (∀ i < b.times.length, tagAt tags name i = tagAt b.tags name i) ∧
      tagAt tags name b.times.length = line.tags.reverse.lookup name)
    (hfields : ∀ name, (∀ i < b.times.length, fieldAt fields name i = fieldAt b.fields name i) ∧
      fieldAt fields name b.times.length = stored fl types line.fields name) :
    (closeRow b.times tags fields line.timestampNs).rows = b.rows ++ [line.row fl types] := by
  have hlength : (closeRow b.times tags fields line.timestampNs).times.length =
      b.times.length + 1 := by simp [closeRow]
  rw [TableBuffer.rows, hlength, List.range_succ, List.map_append, List.map_singleton,
    TableBuffer.rows]
  congr 1
  · apply List.map_congr_left
    intro i hi
    have hlt := List.mem_range.mp hi
    refine hwf.rowAt_eq ?_ ?_ (Increasing.collect _) ?_ rfl
    · simp [closeRow, TableBuffer.rowAt, List.getElem?_append_left hlt]
    · intro name
      rw [closeRow, tagAt_pad, (htags name).1 i hlt, h.get_rowAt]
    · intro name
      rw [closeRow, fieldAt_padTo _ _ (by omega), (hfields name).1 i hlt, h.lookup_rowAt]
  · rw [List.cons.injEq]
    refine ⟨hwf.rowAt_eq ?_ ?_ (Increasing.collect _) ?_ rfl, rfl⟩
    · simp [closeRow, ParsedLine.row]
    · intro name
      rw [closeRow, tagAt_pad, (htags name).2, ParsedLine.row, TagSet.get, tagSet, lookup_collect]
    · intro name
      rw [closeRow, fieldAt_padTo _ _ (Nat.lt_succ_self _), (hfields name).2, ParsedLine.row,
        lookup_collect, ← List.map_reverse, stored,
        lookup_map_snd fun k v => ((types.lookup k).getD (valueType v)).store fl v]

/-- An append adds the row of its line at the end and keeps all others. It is
refused exactly when the type rules do not admit the line. -/
theorem append_spec (fl : FloatOps) (established : Established) {b : TableBuffer} (h : b.Wf)
    (line : ParsedLine) :
    match admitFields established (typesOf b.fields) line.fields with
    | none => ∃ e, b.append fl line established = (b, .error e)
    | some types => ∃ b', b.append fl line established = (b', .ok ()) ∧ b'.Wf ∧
        typesOf b'.fields = types ∧
        b'.tags.map Prod.fst = addTags (b.tags.map Prod.fst) line.tags ∧
        b'.rows = b.rows ++ [line.row fl types] := by
  have hval := validate_iff established b.fields [] line.fields
  rw [List.append_nil] at hval
  split
  · next hnone =>
      rw [hnone] at hval
      cases hcheck : TableBuffer.validate b.fields established [] line.fields with
      | error e => exact ⟨e, by simp only [append, hcheck]⟩
      | ok _ => exact absurd (hval.mp hcheck) (by simp)
  · next types hsome =>
      rw [hsome] at hval
      have hcheck := hval.mpr rfl
      obtain ⟨columns, hpush, hty, hnodup, hfields⟩ :=
        pushFields_spec fl b.times.length hsome
      have htags := tagAt_foldl_pushTag b.times.length line.tags b.tags
      have hmid := MidRow.foldl_pushTag
        (n := b.times.length) ⟨h.tagNames, fun p hp => .inl (h.tagRows p hp)⟩ line.tags
      have hwf := closeRow_wf hmid (hnodup h.fieldNames) line.timestampNs
      refine ⟨closeRow b.times (line.tags.foldl (pushTag b.times.length) b.tags) columns
        line.timestampNs, by simp only [append, hcheck, hpush], hwf, ?_, ?_, ?_⟩
      · rw [typesOf_closeRow, hty]
      · rw [← keys_foldl_pushTag b.times.length]
        simp [closeRow, Function.comp_def]
      · refine rows_closeRow h hwf (fun name => ⟨(htags name).1, ?_⟩)
          fun name => ⟨(hfields name).1, ?_⟩
        · rw [(htags name).2, h.tagAt_end, Option.or_none]
        · rw [(hfields name).2, h.fieldAt_end, Option.or_none]

theorem append_wf {b : TableBuffer} (h : b.Wf) (line : ParsedLine) (established : Established) :
    (b.append fl line established).1.Wf := by
  have hspec := append_spec fl established h line
  split at hspec
  · obtain ⟨e, heq⟩ := hspec
    rw [heq]
    exact h
  · obtain ⟨b', heq, hwf, _⟩ := hspec
    rw [heq]
    exact hwf

end Append

/-- A buffer whose columns all have one cell for each row. -/
abbrev Buffer := { b : TableBuffer // b.Wf }

theorem TableBuffer.wf_empty : TableBuffer.empty.Wf :=
  ⟨List.nodup_nil, List.nodup_nil, by simp [TableBuffer.empty], by simp [TableBuffer.empty]⟩

def Buffer.empty : Buffer := ⟨.empty, TableBuffer.wf_empty⟩

def Buffer.append (fl : FloatOps) (b : Buffer) (line : ParsedLine) (established : Established) :
    Buffer × Except TypeConflict Unit :=
  (⟨(b.1.append fl line established).1, append_wf b.2 line established⟩,
    (b.1.append fl line established).2)

end TimeLake.Ingest
