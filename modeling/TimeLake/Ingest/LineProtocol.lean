import TimeLake.Rows.Flush
import Mathlib.Data.List.DropRight

/-!
The line-protocol parser of `crates/ingest`. The source scans bytes and
decodes each token once; every byte it stops at is ASCII, so scanning the
characters of a valid UTF-8 text cuts it at the same places. What the parser
takes from the float type is a parameter: reading a literal, and the rounding
of an integer that lands in a float column.

`readLine` is a line before a missing timestamp is filled in; `parseLine`
stamps it with the caller's default.
-/

namespace TimeLake.Ingest

open TimeLake.Rows

/-- `f64` as its bits: `str::parse`, `i64 as f64` and `u64 as f64`. -/
structure FloatOps where
  parse : List Char → Option UInt64
  ofInt : Int64 → UInt64
  ofUInt : UInt64 → UInt64

structure ParsedLine where
  table : String
  tags : List (String × String)
  fields : List (String × FieldValue)
  timestampNs : Int
  deriving DecidableEq

/-- A line whose timestamp may be missing. -/
structure Line where
  table : String
  tags : List (String × String)
  fields : List (String × FieldValue)
  timestamp : Option Int
  deriving DecidableEq

def Line.stamp (defaultTsNs : Int) (l : Line) : ParsedLine :=
  ⟨l.table, l.tags, l.fields, l.timestamp.getD defaultTsNs⟩

inductive KeyKind where
  | tag | field
  deriving DecidableEq, Repr

inductive LineError where
  | emptyMeasurement
  | noValue (kind : KeyKind) (key : String)
  | reserved (kind : KeyKind) (key : String)
  | noFieldSet
  | unterminatedString
  | emptyFieldValue
  | badInteger (token : String)
  | badUinteger (token : String)
  | badFloat (token : String)
  | badTimestamp (token : String)
  | timestampOverflow
  deriving DecidableEq, Repr

structure ParseError where
  lineNo : Nat
  msg : LineError
  line : String
  deriving DecidableEq, Repr

/-- The nanoseconds of a `precision` parameter. -/
def precisionMultiplier (p : String) : Option Int64 :=
  if p = "ns" ∨ p = "n" then some 1
  else if p = "us" ∨ p = "u" then some 1000
  else if p = "ms" then some 1000000
  else if p = "s" then some 1000000000
  else none

section Numbers

def i64 (x : Int) : Option Int :=
  if -2 ^ 63 ≤ x ∧ x < 2 ^ 63 then some x else none

def parseDigits (ds : List Char) : Option Nat :=
  if ds ≠ [] ∧ ds.all Char.isDigit then some (Nat.ofDigitChars 10 ds 0) else none

/-- `str::parse::<i64>`: a sign, then ASCII digits, within range. -/
def parseI64 : List Char → Option Int
  | '+' :: ds => (parseDigits ds).bind fun n => i64 n
  | '-' :: ds => (parseDigits ds).bind fun n => i64 (-n)
  | ds => (parseDigits ds).bind fun n => i64 n

/-- `str::parse::<u64>`: a plus sign is read, a minus sign is not a digit. -/
def parseU64 (text : List Char) : Option Nat :=
  let ds := match text with
    | '+' :: ds => ds
    | ds => ds
  (parseDigits ds).bind fun n => if n < 2 ^ 64 then some n else none

/-- Unicode `White_Space`, what `str::trim` takes off. -/
def isWhiteSpace (c : Char) : Bool :=
  let n := c.toNat
  (0x9 ≤ n && n ≤ 0xD) || n = 0x20 || n = 0x85 || n = 0xA0 || n = 0x1680 ||
    (0x2000 ≤ n && n ≤ 0x200A) || n = 0x2028 || n = 0x2029 || n = 0x202F || n = 0x205F ||
    n = 0x3000

def trim (text : List Char) : List Char :=
  (text.dropWhile isWhiteSpace).rdropWhile isWhiteSpace

end Numbers

section Tokens

def escapable (c : Char) : Bool := c = ',' || c = ' ' || c = '=' || c = '\\'

/-- Up to an unescaped stop or space; the token and what is left. -/
def takeEscaped (stop : Char) : List Char → List Char × List Char
  | [] => ([], [])
  | [c] => if c = stop || c = ' ' then ([], [c]) else ([c], [])
  | c :: n :: rest =>
      if c = '\\' && escapable n then
        let (token, left) := takeEscaped stop rest
        (n :: token, left)
      else if c = stop || c = ' ' then ([], c :: n :: rest)
      else
        let (token, left) := takeEscaped stop (n :: rest)
        (c :: token, left)

/-- The rest of a quoted string, after its opening quote. -/
def takeQuoted : List Char → Option (List Char × List Char)
  | [] => none
  | [c] => if c = '"' then some ([], []) else none
  | c :: n :: rest =>
      if c = '\\' then (takeQuoted rest).map fun p => (n :: p.1, p.2)
      else if c = '"' then some ([], n :: rest)
      else (takeQuoted (n :: rest)).map fun p => (c :: p.1, p.2)

def reservedKey : String := "time"

def rejectReservedKey (kind : KeyKind) (key : String) : Except LineError Unit :=
  if key = reservedKey then .error (.reserved kind key) else .ok ()

def trueTokens : List String := ["t", "T", "true", "True", "TRUE"]

def falseTokens : List String := ["f", "F", "false", "False", "FALSE"]

/-- An unquoted field value. -/
def scalar (fl : FloatOps) (token : List Char) : Except LineError FieldValue :=
  let text := String.ofList token
  if token = [] then .error .emptyFieldValue
  else if trueTokens.contains text then .ok (.bool true)
  else if falseTokens.contains text then .ok (.bool false)
  else if token.getLast? = some 'i' then
    match parseI64 token.dropLast with
    | some x => .ok (.int (Int64.ofInt x))
    | none => .error (.badInteger text)
  else if token.getLast? = some 'u' then
    match parseU64 token.dropLast with
    | some x => .ok (.uint (UInt64.ofNat x))
    | none => .error (.badUinteger text)
  else
    match fl.parse token with
    | some bits => .ok (.float bits)
    | none => .error (.badFloat text)

def takeFieldValue (fl : FloatOps) (text : List Char) :
    Except LineError (FieldValue × List Char) :=
  match text with
  | '"' :: rest =>
      match takeQuoted rest with
      | some (s, left) => .ok (.str (String.ofList s), left)
      | none => .error .unterminatedString
  | _ =>
      (scalar fl (text.takeWhile fun c => c ≠ ',' && c ≠ ' ')).map fun v =>
        (v, text.dropWhile fun c => c ≠ ',' && c ≠ ' ')

end Tokens

section Lengths

theorem length_takeEscaped (stop : Char) (text : List Char) :
    (takeEscaped stop text).2.length ≤ text.length := by
  induction text using takeEscaped.induct stop with
  | case1 => simp [takeEscaped]
  | case2 c hstop => rw [takeEscaped, if_pos hstop]
  | case3 c hstop =>
      rw [takeEscaped, if_neg hstop]
      simp
  | case4 c n rest hesc _ _ _ ih =>
      rw [takeEscaped, if_pos hesc]
      simp only [List.length_cons]
      omega
  | case5 c n rest hesc hstop =>
      rw [takeEscaped, if_neg hesc, if_pos hstop]
  | case6 c n rest hesc hstop _ _ _ ih =>
      rw [takeEscaped, if_neg hesc, if_neg hstop]
      exact ih.trans (by simp)

theorem length_takeQuoted {text token left : List Char} (h : takeQuoted text = some (token, left)) :
    left.length ≤ text.length := by
  induction text using takeQuoted.induct generalizing token with
  | case1 => cases h
  | case2 =>
      cases h
      simp
  | case3 c hquote =>
      rw [takeQuoted, if_neg hquote] at h
      cases h
  | case4 n rest ih =>
      rw [takeQuoted, if_pos rfl, Option.map_eq_some_iff] at h
      obtain ⟨⟨t, l⟩, hrest, hpair⟩ := h
      cases hpair
      have := ih hrest
      simp only [List.length_cons] at this ⊢
      omega
  | case5 n rest hc =>
      rw [takeQuoted, if_neg hc, if_pos rfl] at h
      cases h
      simp
  | case6 c n rest hc hquote ih =>
      rw [takeQuoted, if_neg hc, if_neg hquote, Option.map_eq_some_iff] at h
      obtain ⟨⟨t, l⟩, hrest, hpair⟩ := h
      cases hpair
      have := ih hrest
      simp only [List.length_cons] at this ⊢
      omega

theorem length_takeFieldValue {fl : FloatOps} {text left : List Char} {v : FieldValue}
    (h : takeFieldValue fl text = .ok (v, left)) : left.length ≤ text.length := by
  unfold takeFieldValue at h
  split at h
  · split at h
    · next s l hquoted =>
        cases h
        have := length_takeQuoted hquoted
        simp only [List.length_cons]
        omega
    · cases h
  · cases hscalar : scalar fl (text.takeWhile fun c => c ≠ ',' && c ≠ ' ') with
    | error e =>
        rw [hscalar] at h
        cases h
    | ok value =>
        rw [hscalar] at h
        cases h
        exact (List.dropWhile_suffix _).length_le

end Lengths

/-- `while bytes[pos] == b','`: the tag pairs and what follows them. -/
def takeTags : List Char → Except LineError (List (String × String) × List Char)
  | ',' :: text =>
      let key := takeEscaped '=' text
      match _h : key.2 with
      | '=' :: rest =>
          let name := String.ofList key.1
          match rejectReservedKey .tag name with
          | .error e => .error e
          | .ok () =>
              let val := takeEscaped ',' rest
              (takeTags val.2).map fun p => ((name, String.ofList val.1) :: p.1, p.2)
      | _ => .error (.noValue .tag (String.ofList key.1))
  | text => .ok ([], text)
termination_by text => text.length
decreasing_by
  have hkey := length_takeEscaped '=' text
  have hval := length_takeEscaped ',' rest
  have hlen := congrArg List.length _h
  simp only [key, List.length_cons] at *
  omega

/-- The field loop: a pair, then another one after a comma. -/
def takeFields (fl : FloatOps) (text : List Char) :
    Except LineError (List (String × FieldValue) × List Char) :=
  let key := takeEscaped '=' text
  match _h : key.2 with
  | '=' :: rest =>
      let name := String.ofList key.1
      match rejectReservedKey .field name with
      | .error e => .error e
      | .ok () =>
          match _hv : takeFieldValue fl rest with
          | .error e => .error e
          | .ok (v, ',' :: more) => (takeFields fl more).map fun p => ((name, v) :: p.1, p.2)
          | .ok (v, left) => .ok ([(name, v)], left)
  | _ => .error (.noValue .field (String.ofList key.1))
termination_by text.length
decreasing_by
  have hkey := length_takeEscaped '=' text
  have hval := length_takeFieldValue _hv
  have hlen := congrArg List.length _h
  simp only [key, List.length_cons] at *
  omega

/-- The optional timestamp, scaled to nanoseconds. -/
def takeTimestamp (mult : Int) : List Char → Except LineError (Option Int)
  | ' ' :: rest =>
      let ts := trim rest
      if ts = [] then .ok none
      else match parseI64 ts with
        | none => .error (.badTimestamp (String.ofList ts))
        | some n =>
            match i64 (n * mult) with
            | none => .error .timestampOverflow
            | some t => .ok (some t)
  | _ => .ok none

def readLine (fl : FloatOps) (mult : Int) (line : List Char) : Except LineError Line :=
  let table := takeEscaped ',' line
  if table.1 = [] then .error .emptyMeasurement
  else do
    let (tags, rest) ← takeTags table.2
    match rest with
    | ' ' :: rest =>
        let (fields, rest) ← takeFields fl rest
        let timestamp ← takeTimestamp mult rest
        .ok ⟨String.ofList table.1, tags, fields, timestamp⟩
    | _ => .error .noFieldSet

def parseLine (fl : FloatOps) (line : List Char) (mult defaultTsNs : Int) :
    Except LineError ParsedLine :=
  (readLine fl mult line).map (Line.stamp defaultTsNs)

/-- `str::lines` before the carriage returns are taken off. -/
def splitLines : List Char → List (List Char)
  | [] => []
  | c :: rest =>
      if c = '\n' then [] :: splitLines rest
      else match splitLines rest with
        | [] => [[c]]
        | line :: more => (c :: line) :: more

/-- The lines of a body from line number `no` on; blank lines and comments are
counted and skipped. -/
def readLinesFrom (fl : FloatOps) (mult : Int) : Nat → List (List Char) →
    Except ParseError (List Line)
  | _, [] => .ok []
  | no, raw :: rest =>
      let line := raw.rdropWhile (· = '\r')
      if line = [] || line.head? = some '#' then readLinesFrom fl mult (no + 1) rest
      else match readLine fl mult line with
        | .error msg => .error ⟨no, msg, String.ofList line⟩
        | .ok l => (readLinesFrom fl mult (no + 1) rest).map (l :: ·)

def readLines (fl : FloatOps) (input : String) (mult : Int) : Except ParseError (List Line) :=
  readLinesFrom fl mult 1 (splitLines input.toList)

/-- `parse_lines`: every line of a body, or the first error. -/
def parseLines (fl : FloatOps) (input : String) (mult defaultTsNs : Int) :
    Except ParseError (List ParsedLine) :=
  (readLines fl input mult).map (List.map (Line.stamp defaultTsNs))

end TimeLake.Ingest
