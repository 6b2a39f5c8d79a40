import TimeLake.Query.Scan
import TimeLake.Library.Int64

/-!
What a pushed filter says of a row. The query engine evaluates it on the presented
columns; its casts, and the expressions the walk does not look into, are parameters.
Beside that stands what the walk reads of a filter, one comparison of its `AND` tree
at a time: the column and the literal with the casts on both sides taken off.
-/

namespace TimeLake.Query

open TimeLake.Library TimeLake.Wal TimeLake.Catalog TimeLake.Rows TimeLake.Ingest

section Evaluation

/-- The query engine, as far as it is not in the repository: what a value becomes in
another type, if it can be cast, and what other expressions evaluate to. -/
structure Evaluator where
  cast : ArrowType → Cell → Option Cell
  other : String → Record → Option (Option Cell)

def literalCell : ScalarValue → Option Cell
  | .timestamp unit v => v.map fun v => .timestamp unit v.toInt
  | .utf8 v | .largeUtf8 v | .utf8View v => v.map .str
  | .dictionary v => literalCell v
  | .float64 v => v.map .float
  | .int64 v => v.map .int
  | .uint64 v => v.map .uint
  | .boolean v => v.map .bool

/-- The order of `f64::total_cmp`, as an integer of the bits. -/
def totalKey (bits : UInt64) : Int :=
  if bits.toNat < 2 ^ 63 then bits.toNat else 2 ^ 63 - 1 - bits.toNat

/-- Arrow compares values of one type only, strings by their bytes. -/
def compareCells : Cell → Cell → Option Ordering
  | .timestamp unit a, .timestamp unit' b => if unit = unit' then some (compare a b) else none
  | .date a, .date b => some (compare a b)
  | .float a, .float b => some (compare (totalKey a) (totalKey b))
  | .int a, .int b => some (compare a.toInt b.toInt)
  | .uint a, .uint b => some (compare a.toNat b.toNat)
  | .bool a, .bool b => some (compare a.toNat b.toNat)
  | .str a, .str b =>
      some (if a = b then .eq else if utf8 a < utf8 b then .lt else .gt)
  | _, _ => none

def Operator.test : Operator → Ordering → Bool
  | .eq, o => o = .eq
  | .notEq, o => o ≠ .eq
  | .lt, o => o = .lt
  | .ltEq, o => o ≠ .gt
  | .gt, o => o = .gt
  | .gtEq, o => o ≠ .lt
  | .and, _ | .or, _ => false

/-- Kleene's logic for `AND` and `OR`; a comparison with a null is null. -/
def Operator.apply : Operator → Option Cell → Option Cell → Option (Option Cell)
  | .and, some (.bool a), some (.bool b) => some (some (.bool (a && b)))
  | .and, some (.bool a), none | .and, none, some (.bool a) =>
      some (if a then none else some (.bool false))
  | .or, some (.bool a), some (.bool b) => some (some (.bool (a || b)))
  | .or, some (.bool a), none | .or, none, some (.bool a) =>
      some (if a then some (.bool true) else none)
  | .and, none, none | .or, none, none => some none
  | .and, _, _ | .or, _, _ => none
  | op, some a, some b => (compareCells a b).map fun o => some (.bool (op.test o))
  | _, _, _ => some none

variable (ev : Evaluator) (r : Record)

/-- The value of an expression on a row, where `some none` is a null and `none` an
evaluation that fails. -/
def Expr.value : Expr → Option (Option Cell)
  | .column name => some (r name)
  | .literal v => some (literalCell v)
  | .cast e target =>
      e.value.bind fun
        | none => some none
        | some c => (ev.cast target c).map some
  | .binary l op e =>
      l.value.bind fun a => e.value.bind fun b => op.apply a b
  | .other name => ev.other name r

def Expr.isTrue (e : Expr) : Bool := e.value ev r = some (some (.bool true))

/-- All pushed filters evaluate to true. -/
def passes (filters : List Expr) (r : Record) : Bool := filters.all (·.isTrue ev r)

end Evaluation

section Comparisons

/-- A comparison of an `AND` tree. -/
structure Comparison where
  left : Expr
  op : Operator
  right : Expr

def conjuncts : Expr → List Comparison
  | .binary l .and r => conjuncts l ++ conjuncts r
  | .binary l op r => [⟨l, op, r⟩]
  | _ => []

def Comparison.expr (c : Comparison) : Expr := .binary c.left c.op c.right

/-- The string equality the walk reads. -/
def Comparison.tagEqual (c : Comparison) : Option (String × String) :=
  match c.op, colName c.left, strLiteral c.right with
  | .eq, some col, some v => some (col, v)
  | _, _, _ => none

/-- The time and the literal the walk reads a bound from. -/
def Comparison.bound (c : Comparison) : Option Int :=
  match colName c.left with
  | some "time" => tsLiteral c.right
  | _ => none

/-- What the walk reads of a comparison holds of a stored row with this time. -/
def Comparison.Bare (c : Comparison) (r : Record) (time : Int) : Prop :=
  match c.op with
  | .gtEq | .gt => ∀ ts ∈ c.bound, ts ≤ time
  | .ltEq | .lt => ∀ ts ∈ c.bound, time ≤ ts
  | .eq => ∀ q ∈ c.tagEqual, r q.1 = some (.str q.2)
  | _ => True

/-- The bounds and the literals hold of a row. -/
structure Pruning.Admits (p : Pruning) (r : Record) (time : Int) : Prop where
  low : p.minTsNs.all (· ≤ time) = true
  high : p.maxTsNs.all (time ≤ ·) = true
  tags : ∀ q ∈ p.tagEquals, r q.1 = some (.str q.2)

variable {p : Pruning} {r : Record} {time : Int} {q : String × String}

theorem bound_eq_some {l e : Expr} {op : Operator} {ts : Int} :
    (Comparison.mk l op e).bound = some ts ↔ colName l = some "time" ∧ tsLiteral e = some ts := by
  simp only [Comparison.bound]
  split <;> simp_all

theorem tagEqual_eq_some {l e : Expr} {op : Operator} :
    (Comparison.mk l op e).tagEqual = some q ↔
      op = .eq ∧ colName l = some q.1 ∧ strLiteral e = some q.2 := by
  simp only [Comparison.tagEqual]
  split
  · next col v hcol hv => simp [hcol, hv, Prod.ext_iff]
  · next hnot =>
      simp only [reduceCtorEq, false_iff, not_and]
      exact fun hop hcol hv => hnot q.1 q.2 hop hcol hv

theorem admits_low (p : Pruning) (ts : Int) :
    Pruning.Admits { p with minTsNs := some (p.minTsNs.elim ts (max · ts)) } r time ↔
      p.Admits r time ∧ ts ≤ time := by
  have hmax : (some (p.minTsNs.elim ts (max · ts))).all (· ≤ time) = true ↔
      p.minTsNs.all (· ≤ time) = true ∧ ts ≤ time := by
    cases p.minTsNs <;> simp
  constructor
  · rintro ⟨hlow, hhigh, htags⟩
    exact ⟨⟨(hmax.mp hlow).1, hhigh, htags⟩, (hmax.mp hlow).2⟩
  · rintro ⟨⟨hlow, hhigh, htags⟩, hts⟩
    exact ⟨hmax.mpr ⟨hlow, hts⟩, hhigh, htags⟩

theorem admits_high (p : Pruning) (ts : Int) :
    Pruning.Admits { p with maxTsNs := some (p.maxTsNs.elim ts (min · ts)) } r time ↔
      p.Admits r time ∧ time ≤ ts := by
  have hmin : (some (p.maxTsNs.elim ts (min · ts))).all (time ≤ ·) = true ↔
      p.maxTsNs.all (time ≤ ·) = true ∧ time ≤ ts := by
    cases p.maxTsNs <;> simp
  constructor
  · rintro ⟨hlow, hhigh, htags⟩
    exact ⟨⟨hlow, (hmin.mp hhigh).1, htags⟩, (hmin.mp hhigh).2⟩
  · rintro ⟨⟨hlow, hhigh, htags⟩, hts⟩
    exact ⟨hlow, hmin.mpr ⟨hhigh, hts⟩, htags⟩

theorem admits_tag (p : Pruning) (q : String × String) :
    Pruning.Admits { p with tagEquals := p.tagEquals ++ [q] } r time ↔
      p.Admits r time ∧ r q.1 = some (.str q.2) := by
  constructor
  · rintro ⟨hlow, hhigh, htags⟩
    exact ⟨⟨hlow, hhigh, fun q hq => htags q (List.mem_append_left _ hq)⟩,
      htags q (List.mem_append_right _ (List.mem_singleton.mpr rfl))⟩
  · rintro ⟨⟨hlow, hhigh, htags⟩, hq⟩
    refine ⟨hlow, hhigh, fun q' hq' => ?_⟩
    rcases List.mem_append.mp hq' with hq' | hq'
    · exact htags q' hq'
    · rwa [List.mem_singleton.mp hq']

/-- The walk reads nothing of what is left over. -/
theorem conjuncts_unread {e : Expr} (hand : ∀ l r, e = .binary l .and r → False)
    (hge : ∀ l r, e = .binary l .gtEq r → False) (hgt : ∀ l r, e = .binary l .gt r → False)
    (hle : ∀ l r, e = .binary l .ltEq r → False) (hlt : ∀ l r, e = .binary l .lt r → False)
    (heq : ∀ l r, e = .binary l .eq r → False) :
    ∀ c ∈ conjuncts e, (∀ r time, c.Bare r time) ∧ c.tagEqual = none := by
  cases e with
  | binary l op e =>
      cases op with
      | or | notEq =>
          intro c hc
          obtain rfl := List.mem_singleton.mp hc
          exact ⟨fun _ _ => trivial, rfl⟩
      | and => exact (hand _ _ rfl).elim
      | gtEq => exact (hge _ _ rfl).elim
      | gt => exact (hgt _ _ rfl).elim
      | ltEq => exact (hle _ _ rfl).elim
      | lt => exact (hlt _ _ rfl).elim
      | eq => exact (heq _ _ rfl).elim
  | _ => exact fun c hc => (List.not_mem_nil hc).elim

/-- What the walk adds of a filter admits the rows of which its comparisons hold
with the casts taken off. -/
theorem walk_admits (e : Expr) (p : Pruning) :
    (walk e p).Admits r time ↔ p.Admits r time ∧ ∀ c ∈ conjuncts e, c.Bare r time := by
  fun_induction walk e p with
  | case1 l e p ihl ihr =>
      rw [ihr, ihl, and_assoc]
      simp only [conjuncts, List.mem_append, or_imp, forall_and]
  | case2 l e p ts hts hcol | case4 l e p ts hts hcol =>
      rw [admits_low]
      simp [conjuncts, Comparison.Bare, bound_eq_some, hcol, hts]
  | case6 l e p ts hts hcol | case8 l e p ts hts hcol =>
      rw [admits_high]
      simp [conjuncts, Comparison.Bare, bound_eq_some, hcol, hts]
  | case3 l e p hnot | case5 l e p hnot | case7 l e p hnot | case9 l e p hnot =>
      simp only [conjuncts, List.mem_singleton, forall_eq, Comparison.Bare, Option.mem_def,
        bound_eq_some, iff_self_and]
      exact fun _ ts h => (hnot ts h.1 h.2).elim
  | case10 l e p col v hv hcol =>
      rw [admits_tag]
      simp [conjuncts, Comparison.Bare, tagEqual_eq_some, hcol, hv]
  | case11 l e p hnot =>
      simp only [conjuncts, List.mem_singleton, forall_eq, Comparison.Bare, Option.mem_def,
        tagEqual_eq_some, true_and, iff_self_and]
      exact fun _ q h => (hnot q.1 q.2 h.1 h.2).elim
  | case12 e p hand hge hgt hle hlt heq =>
      rw [iff_self_and]
      exact fun _ c hc => (conjuncts_unread hand hge hgt hle hlt heq c hc).1 r time

theorem walk_tagEquals (e : Expr) (p : Pruning) :
    q ∈ (walk e p).tagEquals ↔ q ∈ p.tagEquals ∨ ∃ c ∈ conjuncts e, c.tagEqual = some q := by
  fun_induction walk e p with
  | case1 l e p ihl ihr =>
      rw [ihr, ihl, or_assoc]
      simp only [conjuncts, List.mem_append, or_and_right, exists_or]
  | case10 l e p col v hv hcol =>
      have hq : q = (col, v) ↔ col = q.1 ∧ v = q.2 := by
        rw [Prod.ext_iff]
        exact and_congr eq_comm eq_comm
      simp [conjuncts, tagEqual_eq_some, hcol, hv, hq]
  | case11 l e p hnot =>
      simp only [conjuncts, List.mem_singleton, exists_eq_left, tagEqual_eq_some, true_and,
        iff_self_or]
      exact fun h => (hnot q.1 q.2 h.1 h.2).elim
  | case12 e p hand hge hgt hle hlt heq =>
      rw [iff_self_or]
      rintro ⟨c, hc, hq⟩
      rw [(conjuncts_unread hand hge hgt hle hlt heq c hc).2] at hq
      cases hq
  | _ => simp [conjuncts, tagEqual_eq_some]

/-- The comparisons of a list of filters. -/
def comparisons (filters : List Expr) : List Comparison := filters.flatMap conjuncts

theorem extractPruning_admits (filters : List Expr) :
    (extractPruning filters).Admits r time ↔ ∀ c ∈ comparisons filters, c.Bare r time := by
  have hfold : ∀ p : Pruning, (filters.foldl (fun p f => walk f p) p).Admits r time ↔
      p.Admits r time ∧ ∀ c ∈ comparisons filters, c.Bare r time := by
    induction filters with
    | nil => simp [comparisons]
    | cons f rest ih =>
        intro p
        rw [List.foldl_cons, ih, walk_admits, and_assoc]
        simp only [comparisons, List.flatMap_cons, List.mem_append, or_imp, forall_and]
  rw [extractPruning, hfold]
  exact and_iff_right ⟨rfl, rfl, fun _ hq => (List.not_mem_nil hq).elim⟩

theorem mem_tagEquals (filters : List Expr) :
    q ∈ (extractPruning filters).tagEquals ↔
      ∃ c ∈ comparisons filters, c.tagEqual = some q := by
  have hfold : ∀ p : Pruning, q ∈ (filters.foldl (fun p f => walk f p) p).tagEquals ↔
      q ∈ p.tagEquals ∨ ∃ c ∈ comparisons filters, c.tagEqual = some q := by
    induction filters with
    | nil => simp [comparisons]
    | cons f rest ih =>
        intro p
        rw [List.foldl_cons, ih, walk_tagEquals, or_assoc]
        simp only [comparisons, List.flatMap_cons, List.mem_append, or_and_right, exists_or]
  rw [extractPruning, hfold]
  exact or_iff_right List.not_mem_nil

end Comparisons

section Truth

variable {ev : Evaluator} {r : Record} {time : Int}

theorem apply_and_eq_true {a b : Option Cell} :
    Operator.and.apply a b = some (some (.bool true)) ↔
      a = some (.bool true) ∧ b = some (.bool true) := by
  unfold Operator.apply
  split <;> simp_all

theorem value_binary_eq_true {l e : Expr} {op : Operator} :
    (Expr.binary l op e).isTrue ev r = true ↔
      ∃ a b, l.value ev r = some a ∧ e.value ev r = some b ∧
        op.apply a b = some (some (.bool true)) := by
  simp only [Expr.isTrue, Expr.value, decide_eq_true_eq, Option.bind_eq_some_iff]
  exact ⟨fun ⟨a, ha, b, hb, h⟩ => ⟨a, b, ha, hb, h⟩, fun ⟨a, b, ha, hb, h⟩ => ⟨a, ha, b, hb, h⟩⟩

/-- A true `AND` tree is one of true comparisons. -/
theorem isTrue_conjuncts {e : Expr} (h : e.isTrue ev r = true) :
    ∀ c ∈ conjuncts e, c.expr.isTrue ev r = true := by
  fun_induction conjuncts e with
  | case1 l e ihl ihr =>
      obtain ⟨a, b, hl, hr, hand⟩ := value_binary_eq_true.mp h
      obtain ⟨rfl, rfl⟩ := apply_and_eq_true.mp hand
      intro c hc
      rcases List.mem_append.mp hc with hc | hc
      · exact ihl (decide_eq_true hl) c hc
      · exact ihr (decide_eq_true hr) c hc
  | case2 l op e hop =>
      intro c hc
      obtain rfl := List.mem_singleton.mp hc
      exact h
  | case3 => exact fun c hc => (List.not_mem_nil hc).elim

theorem isTrue_of_passes {filters : List Expr} (h : passes ev filters r = true) :
    ∀ c ∈ comparisons filters, c.expr.isTrue ev r = true := by
  intro c hc
  obtain ⟨f, hf, hc⟩ := List.mem_flatMap.mp hc
  exact isTrue_conjuncts (List.all_eq_true.mp h f hf) c hc

/-- A null stays null under casts. -/
theorem value_of_null {e : Expr} {col : String} (hcol : colName e = some col)
    (hnull : r col = none) : e.value ev r = some none := by
  induction e with
  | column name =>
      obtain rfl := Option.some.inj hcol
      rw [Expr.value, hnull]
  | cast e target ih => rw [Expr.value, ih hcol, Option.bind_some]
  | _ => cases hcol

/-- The column of a true equality is not null. -/
theorem present_of_isTrue {c : Comparison} {q : String × String} (h : c.expr.isTrue ev r = true)
    (hq : c.tagEqual = some q) : (r q.1).isSome := by
  obtain ⟨l, op, e⟩ := c
  obtain ⟨rfl, hcol, _⟩ := tagEqual_eq_some.mp hq
  obtain ⟨a, b, hl, _, happly⟩ := value_binary_eq_true.mp h
  cases hnull : r q.1 with
  | some _ => rfl
  | none =>
      obtain rfl := Option.some.inj (hl.symm.trans (value_of_null hcol hnull))
      cases b <;> cases happly

end Truth

section Exact

/-- What Arrow's `cast` does of the casts that keep a value: to a type the value has
already, or to another encoding of strings, and from microseconds to nanoseconds. -/
structure Evaluator.Exact (ev : Evaluator) : Prop where
  same : ∀ c ty, c.hasType ty = true → ev.cast ty c = some c
  widen : ∀ v : Int, IsI64 (v * 1000) →
    ev.cast (.timestamp .nanosecond) (.timestamp .microsecond v) =
      some (.timestamp .nanosecond (v * 1000))

def isString : ArrowType → Bool
  | .utf8 | .largeUtf8 | .utf8View | .dictionary => true
  | _ => false

/-- A column of the type, under casts that keep its values. -/
def keepsColumn (ty : ArrowType) : Expr → Bool
  | .column _ => true
  | .cast e target => keepsColumn ty e && (ty = target || (isString ty && isString target))
  | _ => false

/-- A literal under casts to nanoseconds. -/
def keepsLiteral : Expr → Bool
  | .literal _ => true
  | .cast e target => keepsLiteral e && target = .timestamp .nanosecond
  | _ => false

variable {ev : Evaluator} {r : Record} {time : Int}

theorem hasType_of_isString {c : Cell} {ty target : ArrowType} (hty : isString ty = true)
    (htarget : isString target = true) (h : c.hasType ty = true) : c.hasType target = true := by
  cases c with
  | str s => cases target <;> first | rfl | cases htarget
  | _ => cases ty <;> simp [isString, Cell.hasType] at hty h

theorem value_keepsColumn (hev : ev.Exact) {e : Expr} {col : String} {ty : ArrowType}
    (hcol : colName e = some col) (hkeeps : keepsColumn ty e = true)
    (htyped : ∀ c, r col = some c → c.hasType ty = true) : e.value ev r = some (r col) := by
  induction e with
  | column name =>
      obtain rfl := Option.some.inj hcol
      rfl
  | cast e target ih =>
      simp only [keepsColumn, Bool.and_eq_true, Bool.or_eq_true, decide_eq_true_eq] at hkeeps
      obtain ⟨hkeeps, htarget⟩ := hkeeps
      rw [Expr.value, ih hcol hkeeps, Option.bind_some]
      cases hcell : r col with
      | none => rfl
      | some c =>
          have hc : c.hasType target = true := by
            rcases htarget with rfl | ⟨hty, htarget⟩
            · exact htyped c hcell
            · exact hasType_of_isString hty htarget (htyped c hcell)
          simp only [hev.same c target hc, Option.map_some]
  | _ => cases hcol

/-- A literal the walk reads a bound from is the bound, or counts microseconds. -/
theorem value_keepsLiteral (hev : ev.Exact) {e : Expr} {ts : Int} (hts : tsLiteral e = some ts)
    (hkeeps : keepsLiteral e = true) :
    e.value ev r = some (some (.timestamp .nanosecond ts)) ∨
      ∃ v, IsI64 (v * 1000) ∧ v * 1000 = ts ∧
        e.value ev r = some (some (.timestamp .microsecond v)) := by
  induction e with
  | literal v =>
      unfold tsLiteral at hts
      split at hts
      · next w hw =>
          obtain rfl := Expr.literal.inj hw
          obtain rfl := Option.some.inj hts
          exact .inl rfl
      · next w hw =>
          obtain rfl := Expr.literal.inj hw
          split at hts
          · next hfits =>
              obtain rfl := Option.some.inj hts
              exact .inr ⟨w.toInt, hfits, rfl, rfl⟩
          · cases hts
      · next h => cases h
      · cases hts
  | cast e target ih =>
      simp only [keepsLiteral, Bool.and_eq_true, decide_eq_true_eq] at hkeeps
      obtain ⟨hkeeps, rfl⟩ := hkeeps
      left
      rw [Expr.value]
      rcases ih hts hkeeps with h | ⟨v, hfits, rfl, h⟩
      · rw [h, Option.bind_some]
        simp only [hev.same (.timestamp .nanosecond ts) (.timestamp .nanosecond) rfl,
          Option.map_some]
      · rw [h, Option.bind_some]
        simp only [hev.widen v hfits, Option.map_some]
  | _ => cases hts

theorem value_strLiteral {e : Expr} {s : String} (hs : strLiteral e = some s) :
    e.value ev r = some (some (.str s)) := by
  unfold strLiteral at hs
  split at hs <;> first | (obtain rfl := Option.some.inj hs; rfl) | cases hs

/-- On both sides of the comparison only casts that keep the value: a time bound on
the nanoseconds, a string equality on a string column of the type. -/
def Comparison.Plain (columns : List (String × ArrowType)) (c : Comparison) : Prop :=
  (∀ ts ∈ c.bound, keepsColumn (.timestamp .nanosecond) c.left = true ∧
    keepsLiteral c.right = true) ∧
  ∀ q ∈ c.tagEqual, ∀ ty ∈ columns.lookup q.1, keepsColumn ty c.left = true

/-- A stored row with this time: its cells have the types of the table's columns. -/
structure Stored (columns : List (String × ArrowType)) (r : Record) (time : Int64) : Prop where
  time : r "time" = some (.timestamp .nanosecond time.toInt)
  typed : ∀ name c, r name = some c →
    ∃ ty, columns.lookup name = some ty ∧ c.hasType ty = true

theorem compareCells_time (hev : ev.Exact) {l e : Expr} {op : Operator} {ts : Int}
    (hbound : (Comparison.mk l op e).bound = some ts)
    (htime : r "time" = some (.timestamp .nanosecond time))
    (hl : keepsColumn (.timestamp .nanosecond) l = true) (he : keepsLiteral e = true)
    (h : (Expr.binary l op e).isTrue ev r = true) (hand : op ≠ .and) (hor : op ≠ .or) :
    op.test (compare time ts) = true := by
  obtain ⟨hcol, hts⟩ := bound_eq_some.mp hbound
  obtain ⟨a, b, ha, hb, happly⟩ := value_binary_eq_true.mp h
  have hcell : l.value ev r = some (r "time") := by
    refine value_keepsColumn hev hcol hl fun c hc => ?_
    obtain rfl := Option.some.inj (htime.symm.trans hc)
    rfl
  obtain rfl := Option.some.inj (ha.symm.trans (hcell.trans (congrArg some htime)))
  rcases value_keepsLiteral hev hts he with hvalue | ⟨v, _, _, hvalue⟩
  · obtain rfl := Option.some.inj (hb.symm.trans hvalue)
    cases op <;> first | exact absurd rfl hand | exact absurd rfl hor |
      simpa [Operator.apply, compareCells] using happly
  · obtain rfl := Option.some.inj (hb.symm.trans hvalue)
    cases op <;> first | exact absurd rfl hand | exact absurd rfl hor |
      cases happly

/-- If the casts of a true comparison keep the values, it is true without them. -/
theorem bare_of_plain (hev : ev.Exact) {columns : List (String × ArrowType)} {time : Int64}
    (hr : Stored columns r time) {c : Comparison} (hplain : c.Plain columns)
    (h : c.expr.isTrue ev r = true) : c.Bare r time.toInt := by
  obtain ⟨l, op, e⟩ := c
  obtain ⟨hbounds, htags⟩ := hplain
  cases op with
  | gtEq =>
      intro ts hts
      have htest := compareCells_time hev hts hr.time (hbounds ts hts).1 (hbounds ts hts).2 h
        (by decide) (by decide)
      simpa [Operator.test, Int.compare_ne_lt] using htest
  | gt =>
      intro ts hts
      have htest := compareCells_time hev hts hr.time (hbounds ts hts).1 (hbounds ts hts).2 h
        (by decide) (by decide)
      have hlt : ts < time.toInt := by simpa [Operator.test, compare_gt_iff_gt] using htest
      exact hlt.le
  | ltEq =>
      intro ts hts
      have htest := compareCells_time hev hts hr.time (hbounds ts hts).1 (hbounds ts hts).2 h
        (by decide) (by decide)
      simpa [Operator.test, Int.compare_ne_gt] using htest
  | lt =>
      intro ts hts
      have htest := compareCells_time hev hts hr.time (hbounds ts hts).1 (hbounds ts hts).2 h
        (by decide) (by decide)
      have hlt : time.toInt < ts := by simpa [Operator.test, compare_lt_iff_lt] using htest
      exact hlt.le
  | eq =>
      intro q hq
      obtain ⟨_, hcol, hs⟩ := tagEqual_eq_some.mp hq
      obtain ⟨c, hcell⟩ := Option.isSome_iff_exists.mp (present_of_isTrue h hq)
      obtain ⟨ty, hty, hc⟩ := hr.typed _ _ hcell
      obtain ⟨a, b, ha, hb, happly⟩ := value_binary_eq_true.mp h
      have hvalue : l.value ev r = some (r q.1) := by
        refine value_keepsColumn hev hcol (htags q hq ty hty) fun c' hc' => ?_
        obtain rfl := Option.some.inj (hcell.symm.trans hc')
        exact hc
      obtain rfl := Option.some.inj (ha.symm.trans (hvalue.trans (congrArg some hcell)))
      obtain rfl := Option.some.inj (hb.symm.trans (value_strLiteral hs))
      rw [hcell]
      cases c with
      | str s =>
          by_cases heq : s = q.2
          · rw [heq]
          · simp only [Operator.apply, compareCells, if_neg heq] at happly
            split at happly <;> cases happly
      | _ => cases happly
  | _ => trivial

end Exact

end TimeLake.Query
