import TimeLake.Ingest.Buffer
import TimeLake.Library.Distinct

/-!
The columns of `TableBuffer` as the source stores them. A tag column keeps its values
once and an `i32` for each row; the key of a new value is the number of values before
it, cast. The cast does not fail: beyond 2^31 values it wraps around. So these columns
are those of `Ingest.TableBuffer`, whose keys have no bound, under the cast, and one
append does the same to both.
-/

namespace TimeLake.Columns

open TimeLake.Library TimeLake.Rows
open TimeLake.Ingest (FloatOps ParsedLine FieldCol Established TypeConflict resize)

/-- `as i32` -/
@[irreducible] def asI32 (n : Nat) : Int := (n : Int).bmod (2 ^ 32)

theorem asI32_lt (n : Nat) : asI32 n < 2 ^ 31 := by
  have h := Int.bmod_lt (x := (n : Int)) (m := 2 ^ 32) (by omega)
  unfold asI32
  omega

theorem asI32_of_lt {n : Nat} (h : n < 2 ^ 31) : asI32 n = n := by
  unfold asI32
  rw [Int.bmod_def]
  omega

structure TagCol where
  intern : AssocMap String Int
  values : List String
  keys : List (Option Int)

namespace TagCol

def empty : TagCol := ⟨∅, [], []⟩

def padTo (c : TagCol) (n : Nat) : TagCol := { c with keys := resize n c.keys }

def push (c : TagCol) (v : String) : TagCol :=
  match c.intern.lookup v with
  | some k => { c with keys := c.keys ++ [some k] }
  | none =>
      ⟨c.intern.insert v (asI32 c.values.length), c.values ++ [v],
        c.keys ++ [some (asI32 c.values.length)]⟩

/-- `if c.keys.len() < n { c.keys.push(None) }` -/
def pad (c : TagCol) (n : Nat) : TagCol :=
  if c.keys.length < n then { c with keys := c.keys ++ [none] } else c

/-- The value a key of the column points at. -/
def valueOf (c : TagCol) (k : Int) : Option String :=
  if 0 ≤ k then c.values[k.toNat]? else none

end TagCol

structure TableBuffer where
  times : List Int
  tags : List (String × TagCol)
  fields : List (String × FieldCol)

namespace TableBuffer

def empty : TableBuffer := ⟨[], [], []⟩

def rowCount (b : TableBuffer) : Nat := b.times.length

def pushTag (n : Nat) (tags : List (String × TagCol)) (p : String × String) :
    List (String × TagCol) :=
  upsert p.1 (fun col => ((col.getD .empty).padTo n).push p.2) tags

def closeRow (times : List Int) (tags : List (String × TagCol)) (fields : List (String × FieldCol))
    (timestampNs : Int) : TableBuffer :=
  let n := times.length + 1
  ⟨times ++ [timestampNs], tags.map fun p => (p.1, p.2.pad n),
    fields.map fun p => (p.1, p.2.padTo n)⟩

/-- `TableBuffer::append` -/
def append (fl : FloatOps) (b : TableBuffer) (line : ParsedLine) (established : Established) :
    TableBuffer × Except TypeConflict Unit :=
  match Ingest.TableBuffer.validate b.fields established [] line.fields with
  | .error e => (b, .error e)
  | .ok () =>
      let n := b.times.length
      let tags := line.tags.foldl (pushTag n) b.tags
      match Ingest.TableBuffer.pushFields fl established n b.fields line.fields with
      | (fields, .error e) => ({ b with tags := tags, fields := fields }, .error e)
      | (fields, .ok ()) => (closeRow b.times tags fields line.timestampNs, .ok ())

/-- What a snapshot shows in row `i` of a column. -/
def tagAt (b : TableBuffer) (name : String) (i : Nat) : Option String :=
  (b.tags.lookup name).bind fun col => col.keys[i]?.join.bind col.valueOf

def fieldAt (b : TableBuffer) (name : String) (i : Nat) : Option FieldValue :=
  Ingest.TableBuffer.fieldAt b.fields name i

end TableBuffer

section Cast

/-- A column and the same one with keys that do not wrap. -/
structure Casts (c : TagCol) (m : Ingest.TagCol) : Prop where
  intern : ∀ v, c.intern.lookup v = (m.intern.lookup v).map asI32
  values : c.values = m.values
  keys : c.keys = m.keys.map (Option.map asI32)

theorem Casts.empty : Casts .empty .empty := ⟨fun _ => rfl, rfl, rfl⟩

variable {c : TagCol} {m : Ingest.TagCol}

theorem Casts.padTo (h : Casts c m) (n : Nat) : Casts (c.padTo n) (m.padTo n) := by
  refine ⟨h.intern, h.values, ?_⟩
  change resize n c.keys = (resize n m.keys).map (Option.map asI32)
  rw [h.keys]
  simp [resize, List.map_take]

theorem Casts.pad (h : Casts c m) (n : Nat) : Casts (c.pad n) (m.pad n) := by
  unfold TagCol.pad Ingest.TagCol.pad
  rw [h.keys, List.length_map]
  split
  · exact ⟨h.intern, h.values, by simp⟩
  · exact h

theorem Casts.push (h : Casts c m) (v : String) : Casts (c.push v) (m.push v) := by
  have hlook := h.intern v
  unfold TagCol.push Ingest.TagCol.push
  split
  · next k hk =>
      rw [hk] at hlook
      split
      · next j hj =>
          rw [hj] at hlook
          obtain rfl := Option.some.inj hlook
          exact ⟨h.intern, h.values, by simp [h.keys]⟩
      · next hj =>
          rw [hj] at hlook
          cases hlook
  · next hk =>
      rw [hk] at hlook
      split
      · next j hj =>
          rw [hj] at hlook
          cases hlook
      · next hj =>
          refine ⟨fun w => ?_, by rw [h.values], by simp [h.keys, h.values]⟩
          by_cases hw : w = v
          · subst hw
            rw [AList.lookup_insert, AList.lookup_insert, h.values]
            rfl
          · rw [AList.lookup_insert_ne hw, AList.lookup_insert_ne hw, h.intern]

/-- The columns of one buffer under those of the other, name by name. -/
def CastsAll (tags : List (String × TagCol)) (mtags : List (String × Ingest.TagCol)) : Prop :=
  List.Forall₂ (fun p q => p.1 = q.1 ∧ Casts p.2 q.2) tags mtags

structure BufferCasts (b : TableBuffer) (m : Ingest.TableBuffer) : Prop where
  times : b.times = m.times
  tags : CastsAll b.tags m.tags
  fields : b.fields = m.fields

variable {tags : List (String × TagCol)} {mtags : List (String × Ingest.TagCol)}

theorem CastsAll.pushTag (h : CastsAll tags mtags) (n : Nat) (p : String × String) :
    CastsAll (TableBuffer.pushTag n tags p) (Ingest.TableBuffer.pushTag n mtags p) := by
  unfold TableBuffer.pushTag Ingest.TableBuffer.pushTag
  induction h with
  | nil => exact .cons ⟨rfl, (Casts.empty.padTo n).push p.2⟩ .nil
  | @cons x y xs ys hxy hrest ih =>
      obtain ⟨hname, hcol⟩ := hxy
      rw [upsert, upsert, hname]
      split
      · exact .cons ⟨rfl, (hcol.padTo n).push p.2⟩ hrest
      · exact .cons ⟨rfl, hcol⟩ ih

theorem CastsAll.foldl_pushTag (h : CastsAll tags mtags) (n : Nat)
    (pairs : List (String × String)) :
    CastsAll (pairs.foldl (TableBuffer.pushTag n) tags)
      (pairs.foldl (Ingest.TableBuffer.pushTag n) mtags) := by
  induction pairs generalizing tags mtags with
  | nil => exact h
  | cons p rest ih => exact ih (h.pushTag n p)

theorem CastsAll.pad (h : CastsAll tags mtags) (n : Nat) :
    CastsAll (tags.map fun p => (p.1, p.2.pad n)) (mtags.map fun p => (p.1, p.2.pad n)) := by
  induction h with
  | nil => exact .nil
  | cons hxy _ ih => exact .cons ⟨hxy.1, hxy.2.pad n⟩ ih

/-- An append does the same to both, and says the same. -/
theorem BufferCasts.append {b : TableBuffer} {m : Ingest.TableBuffer} (h : BufferCasts b m)
    (fl : FloatOps) (line : ParsedLine) (established : Established) :
    BufferCasts (b.append fl line established).1 (m.append fl line established).1 ∧
      (b.append fl line established).2 = (m.append fl line established).2 := by
  obtain ⟨times, tags, fields⟩ := b
  obtain ⟨htimes, htags, hfields⟩ := h
  simp only at htimes hfields
  subst htimes hfields
  have hpushed := htags.foldl_pushTag m.times.length line.tags
  cases hcheck : Ingest.TableBuffer.validate m.fields established [] line.fields with
  | error e =>
      simp only [TableBuffer.append, Ingest.TableBuffer.append, hcheck]
      exact ⟨⟨rfl, htags, rfl⟩, trivial⟩
  | ok u =>
      cases hfields : Ingest.TableBuffer.pushFields fl established m.times.length m.fields
          line.fields with
      | mk columns result =>
          cases result with
          | error e =>
              simp only [TableBuffer.append, Ingest.TableBuffer.append, hcheck, hfields]
              exact ⟨⟨rfl, hpushed, rfl⟩, trivial⟩
          | ok u =>
              simp only [TableBuffer.append, Ingest.TableBuffer.append, hcheck, hfields]
              exact ⟨⟨rfl, hpushed.pad _, rfl⟩, trivial⟩

theorem CastsAll.lookup (h : CastsAll tags mtags) (name : String) :
    Option.Rel Casts (tags.lookup name) (mtags.lookup name) := by
  induction h with
  | nil => exact .none
  | @cons x y xs ys hxy _ ih =>
      rw [lookup_cons_eq_ite, lookup_cons_eq_ite, hxy.1]
      split
      · exact .some hxy.2
      · exact ih

theorem CastsAll.exists_of_mem (h : CastsAll tags mtags) {p : String × TagCol} (hp : p ∈ tags) :
    ∃ q ∈ mtags, p.1 = q.1 ∧ Casts p.2 q.2 := by
  induction h with
  | nil => cases hp
  | cons hxy _ ih =>
      rcases List.mem_cons.mp hp with rfl | hp
      · exact ⟨_, List.mem_cons_self, hxy⟩
      · obtain ⟨q, hq, hpq⟩ := ih hp
        exact ⟨q, List.mem_cons_of_mem _ hq, hpq⟩

end Cast

end TimeLake.Columns
