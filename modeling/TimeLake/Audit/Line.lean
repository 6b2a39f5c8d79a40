import TimeLake.Audit.Chain
import TimeLake.Library.JsonNumbers
import TimeLake.Library.Split
import TimeLake.Library.Utf8
import TimeLake.Library.Int64
import TimeLake.Query.Label
import Mathlib.Algebra.Group.Nat.Defs

/-!
The bytes of an audit record. It is hashed over the JSON of its fields and the hash in
front of it once more, and it stands in a segment as one line of JSON, which `serde_json`
reads down to 127 nested arrays and objects. `before` and `after` are values of
`serde_json`: their integers have 64 bits, and how it writes and reads all other numbers
is a parameter, as SHA-256 is. A segment is the characters of its text.
-/

namespace TimeLake.Audit

open TimeLake.Library

section Values

/-- The numbers that are no integers of 64 bits. Their texts have a point or an exponent. -/
structure FloatFormat (F : Type) where
  text : F → List Char
  parse : List Char → Option F
  token : ∀ f, Json.IsToken (text f)
  fractional : ∀ f, ∃ c ∈ text f, c = '.' ∨ c = 'e'

/-- The values of an `i64` or a `u64`. -/
structure Integer where
  val : Int
  inRange : -2 ^ 63 ≤ val ∧ val < 2 ^ 64

/-- `serde_json::Number` -/
inductive Number (F : Type) where
  | int (v : Integer)
  | float (f : F)

variable {F : Type} (fmt : FloatFormat F)

def decimal (v : Int) : List Char :=
  if v < 0 then '-' :: Nat.toDigits 10 v.natAbs else Nat.toDigits 10 v.natAbs

def Number.text : Number F → List Char
  | .int v => decimal v.val
  | .float f => fmt.text f

/-- An integer token of 64 bits. A negative zero is none. -/
def integer : List Char → Option Int
  | '-' :: ds => (Json.natural ds).bind fun n =>
      if 0 < n ∧ (n : Int) ≤ 2 ^ 63 then some (-n) else none
  | ds => (Json.natural ds).bind fun n => if (n : Int) < 2 ^ 64 then some n else none

theorem integer_inRange {token : List Char} {v : Int} (h : integer token = some v) :
    -2 ^ 63 ≤ v ∧ v < 2 ^ 64 := by
  unfold integer at h
  split at h
  · obtain ⟨n, _, h⟩ := Option.bind_eq_some_iff.mp h
    split at h
    · next hn =>
        obtain rfl := Option.some.inj h
        omega
    · cases h
  · obtain ⟨n, _, h⟩ := Option.bind_eq_some_iff.mp h
    split at h
    · next hn =>
        obtain rfl := Option.some.inj h
        omega
    · cases h

def Number.parse (token : List Char) : Option (Number F) :=
  match h : integer token with
  | some v => some (.int ⟨v, integer_inRange h⟩)
  | none => (fmt.parse token).map .float

theorem integer_decimal (v : Integer) : integer (decimal v.val) = some v.val := by
  obtain ⟨v, hlo, hhi⟩ := v
  change integer (decimal v) = some v
  unfold decimal
  split
  · next hneg =>
      have hrange : 0 < v.natAbs ∧ (v.natAbs : Int) ≤ 2 ^ 63 := by omega
      rw [integer, Json.natural_toDigits, Option.bind_some, if_pos hrange]
      exact congrArg some (by omega)
  · next hpos =>
      have hdash : ∀ ds, Nat.toDigits 10 v.natAbs ≠ '-' :: ds := by
        intro ds heq
        have hdigit := Nat.isDigit_of_mem_toDigits (b := 10) (n := v.natAbs) (c := '-') (by decide)
          (by decide) (by rw [heq]; exact List.mem_cons_self)
        cases hdigit
      have hrange : (v.natAbs : Int) < 2 ^ 64 := by omega
      unfold integer
      split
      · next ds heq => exact absurd heq (hdash ds)
      · rw [Json.natural_toDigits, Option.bind_some, if_pos hrange]
        exact congrArg some (by omega)

theorem integer_float (f : F) : integer (fmt.text f) = none := by
  obtain ⟨c, hc, hpoint⟩ := fmt.fractional f
  have hdigit : c.isDigit = false := by rcases hpoint with rfl | rfl <;> rfl
  have hdash : c ≠ '-' := by rcases hpoint with rfl | rfl <;> decide
  unfold integer
  split
  · next ds heq =>
      rw [heq] at hc
      rw [Json.natural_eq_none ((List.mem_cons.mp hc).resolve_left hdash) hdigit]
      rfl
  · rw [Json.natural_eq_none hc hdigit]
    rfl

theorem isToken_decimal (v : Int) : Json.IsToken (decimal v) := by
  unfold decimal
  split
  · exact (Json.isToken_toDigits _).neg
  · exact Json.isToken_toDigits _

theorem Number.isToken (n : Number F) : Json.IsToken (n.text fmt) := by
  cases n with
  | int v => exact isToken_decimal v.val
  | float f => exact fmt.token f

/-- A number that is read again with the text it was written with. -/
def Number.Rereads : Number F → Prop
  | .int _ => True
  | .float f => ∃ g, fmt.parse (fmt.text f) = some g ∧ fmt.text g = fmt.text f

theorem Number.parse_text {n : Number F} (h : n.Rereads fmt) :
    ∃ m, Number.parse fmt (n.text fmt) = some m ∧ m.text fmt = n.text fmt := by
  cases n with
  | int v =>
      refine ⟨.int v, ?_, rfl⟩
      unfold Number.parse
      split
      · next w hw =>
          rw [Number.text, integer_decimal] at hw
          obtain rfl := Option.some.inj hw
          rfl
      · next hnone =>
          rw [Number.text, integer_decimal] at hnone
          cases hnone
  | float f =>
      obtain ⟨g, hg, htext⟩ := h
      refine ⟨.float g, ?_, htext⟩
      unfold Number.parse
      split
      · next w hw =>
          rw [Number.text, integer_float] at hw
          cases hw
      · rw [Number.text, hg]
        rfl

end Values

section Records

/-- A `serde_json::Value`: no object has two members of one name. -/
structure Value (F : Type) where
  json : Json (Number F)
  named : json.Proper fun _ => True

/-- `NewRecord` with its values. -/
structure Event (F : Type) where
  principal : String
  role : String
  session : Option String
  source : Option String
  requestId : Option String
  action : String
  target : Option String
  before : Option (Value F)
  after : Option (Value F)
  outcome : String

/-- `AuditRecord` with its values. -/
structure Entry (F : Type) extends Event F where
  seq : Nat
  ts : String
  node : String
  prevHash : String
  hash : String

variable {F : Type} (fmt : FloatFormat F)

def Value.text (v : Value F) : String := String.ofList (v.json.write (Number.text fmt))

/-- The record whose values are texts. -/
def Event.texts (e : Event F) : NewRecord :=
  { principal := e.principal
    role := e.role
    session := e.session
    source := e.source
    requestId := e.requestId
    action := e.action
    target := e.target
    before := e.before.map (Value.text fmt)
    after := e.after.map (Value.text fmt)
    outcome := e.outcome }

def Entry.texts (e : Entry F) : AuditRecord :=
  { e.toEvent.texts fmt with
    seq := e.seq
    ts := e.ts
    node := e.node
    prevHash := e.prevHash
    hash := e.hash }

end Records

section Writing

/-- The JSON of an `Option<String>`. -/
def optionText : Option String → Json (List Char)
  | none => .null
  | some s => .str s

/-- A value of which there is the text only. -/
def embedded : Option String → Json (List Char)
  | none => .null
  | some text => .num text.toList

/-- The fields in the order of `HashInput`. -/
def fields (i : HashInput) (before after : Json (List Char)) : List (String × Json (List Char)) :=
  [("seq", .num (Nat.toDigits 10 i.seq)), ("ts", .str i.ts), ("node", .str i.node),
    ("principal", .str i.principal), ("role", .str i.role), ("session", optionText i.session),
    ("source", optionText i.source), ("request_id", optionText i.requestId),
    ("action", .str i.action), ("target", optionText i.target), ("before", before),
    ("after", after), ("outcome", .str i.outcome), ("prev_hash", .str i.prevHash)]

def HashInput.json (i : HashInput) : Json (List Char) :=
  .obj (fields i (embedded i.before) (embedded i.after))

def AuditRecord.json (r : AuditRecord) : Json (List Char) :=
  .obj (fields r.toHashInput (embedded r.before) (embedded r.after) ++ [("hash", .str r.hash)])

def AuditRecord.text (r : AuditRecord) : List Char := r.json.write id

/-- What `append` writes. -/
def AuditRecord.line (r : AuditRecord) : List Char := r.text ++ ['\n']

/-- `compute_hash` hashes the JSON and the hash in front of the record. -/
def hashedBytes (i : HashInput) : Bytes := encodeChars (i.json.write id ++ i.prevHash.toList)

variable (digest : Bytes → String)

/-- `compute_hash`, with the digest in hexadecimal digits. -/
def sha256 (i : HashInput) : String := "sha256:" ++ digest (hashedBytes i)

end Writing

section Reading

variable {F : Type} (fmt : FloatFormat F)

def u64Of : Json (List Char) → Option Nat
  | .num token => (Json.natural token).filter (· < 2 ^ 64)
  | _ => none

def stringOf : Json (List Char) → Option String
  | .str s => some s
  | _ => none

def valueOf (v : Json (List Char)) : Option (Value F) :=
  match h : Json.decode (Number.parse fmt) v with
  | some w => some ⟨w, Json.decode_proper (fun _ _ _ => trivial) v h⟩
  | none => none

/-- A field of an `Option` type: `null` and a missing field are `None`. -/
def optionOf {α : Type} (f : Json (List Char) → Option α) :
    Option (Json (List Char)) → Option (Option α)
  | none => some none
  | some .null => some none
  | some v => (f v).map some

def fieldNames : List String :=
  ["seq", "ts", "node", "principal", "role", "session", "source", "request_id", "action",
    "target", "before", "after", "outcome", "prev_hash", "hash"]

/-- The members of an object as a record: unknown ones are ignored, and none of the
others may occur twice. -/
def recordOf (members : List (String × Json (List Char))) : Option (Entry F) :=
  if ((members.map Prod.fst).filter fieldNames.contains).Nodup then do
    let seq ← (members.lookup "seq").bind u64Of
    let ts ← (members.lookup "ts").bind stringOf
    let node ← (members.lookup "node").bind stringOf
    let principal ← (members.lookup "principal").bind stringOf
    let role ← (members.lookup "role").bind stringOf
    let session ← optionOf stringOf (members.lookup "session")
    let source ← optionOf stringOf (members.lookup "source")
    let requestId ← optionOf stringOf (members.lookup "request_id")
    let action ← (members.lookup "action").bind stringOf
    let target ← optionOf stringOf (members.lookup "target")
    let before ← optionOf (valueOf fmt) (members.lookup "before")
    let after ← optionOf (valueOf fmt) (members.lookup "after")
    let outcome ← (members.lookup "outcome").bind stringOf
    let prevHash ← (members.lookup "prev_hash").bind stringOf
    let hash ← (members.lookup "hash").bind stringOf
    some
      { seq := seq
        ts := ts
        node := node
        principal := principal
        role := role
        session := session
        source := source
        requestId := requestId
        action := action
        target := target
        before := before
        after := after
        outcome := outcome
        prevHash := prevHash
        hash := hash }
  else none

/-- How many arrays and objects `serde_json` opens inside one another. -/
def nesting : Nat := 127

/-- `serde_json::from_str` for a record. -/
def readRecord (line : List Char) : Option (Entry F) :=
  match Json.read nesting line with
  | some (.obj members, rest) => if rest.all Json.isBlank then recordOf fmt members else none
  | _ => none

/-- `BufRead::lines` -/
def lines (text : List Char) : List (List Char) :=
  (pieces '\n' text).map fun line => if line.getLast? = some '\r' then line.dropLast else line

/-- `read_segment` of a file with this text. -/
def readText (text : List Char) : Option (List (Entry F)) :=
  ((lines text).filter fun line => !line.all Query.isWhitespace).mapM (readRecord fmt)

end Reading

end TimeLake.Audit
