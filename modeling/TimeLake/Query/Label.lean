import TimeLake.Wal.Codec

/-!
The visibility labels of `crates/query`: `evaluate` reads a label expression
byte by byte and evaluates it against the session's authorizations on the way.
The parser of the source recurses on parentheses and loops over the operators of
one level; here each call of them takes one unit of fuel, and there is enough of
it for two calls at every byte.
-/

namespace TimeLake.Query

open TimeLake.Library TimeLake.Wal

inductive LabelError where
  | trailingInput (position : Nat)
  | mixedOperators
  | unclosedParenthesis
  | unclosedQuote
  | badEscape
  | emptyQuotedToken
  | expectedToken (position : Nat)
  | outOfFuel
  deriving DecidableEq, Repr

/-- `u8::is_ascii_whitespace`. -/
def isAsciiWhitespace (b : UInt8) : Bool :=
  b = 0x20 || b = 0x09 || b = 0x0A || b = 0x0C || b = 0x0D

/-- `char::is_whitespace`: Unicode's `White_Space`. -/
def isWhitespace (c : Char) : Bool :=
  (0x09 ≤ c.toNat && c.toNat ≤ 0x0D) || c.toNat = 0x20 || c.toNat = 0x85 || c.toNat = 0xA0 ||
    c.toNat = 0x1680 || (0x2000 ≤ c.toNat && c.toNat ≤ 0x200A) || c.toNat = 0x2028 ||
    c.toNat = 0x2029 || c.toNat = 0x202F || c.toNat = 0x205F || c.toNat = 0x3000

def isAsciiAlphanumeric (b : UInt8) : Bool :=
  (0x30 ≤ b && b ≤ 0x39) || (0x41 ≤ b && b ≤ 0x5A) || (0x61 ≤ b && b ≤ 0x7A)

/-- Letters, digits and `_`, `-`, `.`, `:`, `/`. -/
def isTokenByte (b : UInt8) : Bool :=
  isAsciiAlphanumeric b || b = 0x5F || b = 0x2D || b = 0x2E || b = 0x3A || b = 0x2F

def skipWs (s : Bytes) : Bytes := s.dropWhile isAsciiWhitespace

/-- `c as char` of each byte. -/
def asChars (bytes : Bytes) : String := String.ofList (bytes.map fun b => Char.ofNat b.toNat)

/-- A quoted token behind its opening quote: the bytes it stands for and what
follows the closing one. -/
def quotedToken : Bytes → Bytes → Except LabelError (Bytes × Bytes)
  | _, [] => .error .unclosedQuote
  | acc, 0x22 :: rest => .ok (acc, rest)
  | acc, 0x5C :: c :: rest =>
      if c = 0x22 || c = 0x5C then quotedToken (acc ++ [c]) rest else .error .badEscape
  | _, [0x5C] => .error .badEscape
  | acc, c :: rest => quotedToken (acc ++ [c]) rest

section Parser

variable (auths : List String) (length : Nat)

mutual

def term : Nat → Bytes → Except LabelError (Bool × Bytes)
  | 0, _ => .error .outOfFuel
  | fuel + 1, s =>
      match skipWs s with
      | 0x28 :: rest =>
          match expression fuel rest with
          | .error e => .error e
          | .ok (v, rest) =>
              match skipWs rest with
              | 0x29 :: rest => .ok (v, rest)
              | _ => .error .unclosedParenthesis
      | 0x22 :: rest =>
          match quotedToken [] rest with
          | .error e => .error e
          | .ok ([], _) => .error .emptyQuotedToken
          | .ok (token, rest) => .ok (auths.contains (asChars token), rest)
      | rest =>
          match rest.takeWhile isTokenByte with
          | [] => .error (.expectedToken (length - rest.length))
          | token => .ok (auths.contains (asChars token), rest.dropWhile isTokenByte)

/-- One level: terms joined by one kind of operator. -/
def expression : Nat → Bytes → Except LabelError (Bool × Bytes)
  | 0, _ => .error .outOfFuel
  | fuel + 1, s =>
      match term fuel s with
      | .error e => .error e
      | .ok (acc, rest) => operators fuel none acc rest

def operators : Nat → Option UInt8 → Bool → Bytes → Except LabelError (Bool × Bytes)
  | 0, _, _, _ => .error .outOfFuel
  | fuel + 1, levelOp, acc, s =>
      match skipWs s with
      | op :: rest =>
          if op = 0x26 || op = 0x7C then
            if levelOp.any (· ≠ op) then .error .mixedOperators
            else
              match term fuel rest with
              | .error e => .error e
              | .ok (rhs, rest) =>
                  operators fuel (some op) (if op = 0x26 then acc && rhs else acc || rhs) rest
          else .ok (acc, op :: rest)
      | [] => .ok (acc, [])

end

end Parser

/-- `visibility::evaluate`. -/
def evaluate (label : String) (auths : List String) : Except LabelError Bool :=
  if label.toList.all isWhitespace then .ok true
  else
    let bytes := utf8 label
    match expression auths bytes.length (2 * bytes.length + 3) bytes with
    | .error e => .error e
    | .ok (v, rest) =>
        match skipWs rest with
        | [] => .ok v
        | rest => .error (.trailingInput (bytes.length - rest.length))

/-- A malformed label is visible to nobody. -/
def isVisible (label : String) (auths : List String) : Bool :=
  match evaluate label auths with
  | .ok v => v
  | .error _ => false

example : isVisible "(ops&audit)|admin" ["admin"] = true := by decide +kernel

example : evaluate "a&b|c" ["c"] = .error .mixedOperators := by decide +kernel

end TimeLake.Query
