import TimeLake.Auth.Principals
import TimeLake.Auth.Tokens
import TimeLake.Library.Base64
import TimeLake.Library.Split
import TimeLake.Query.Label

/-!
From an `Authorization` header to a decision: the two scanners of the header in
`token.rs`, the verification of the token they find, and the rules of `guard.rs`.
SHA-256 is a parameter.
-/

namespace TimeLake.Auth

open TimeLake.Ingest (trim)
open TimeLake.Library
open TimeLake.Query (asChars isAsciiWhitespace)
open TimeLake.Wal (fromUtf8 utf8)

def isBearerOrToken (scheme : List Char) : Bool :=
  eqIgnoreAsciiCase (String.ofList scheme) "bearer" ||
    eqIgnoreAsciiCase (String.ofList scheme) "token"

def isBasic (scheme : List Char) : Bool := eqIgnoreAsciiCase (String.ofList scheme) "basic"

/-- The value of a byte in either alphabet. -/
def base64Value (c : UInt8) : Option Nat :=
  if 0x41 ≤ c && c ≤ 0x5A then some (c.toNat - 0x41)
  else if 0x61 ≤ c && c ≤ 0x7A then some (c.toNat - 0x61 + 26)
  else if 0x30 ≤ c && c ≤ 0x39 then some (c.toNat - 0x30 + 52)
  else if c = 0x2B || c = 0x2D then some 62
  else if c = 0x2F || c = 0x5F then some 63
  else none

/-- `base64_decode`: padding and blanks are dropped wherever they stand. -/
def base64Decode (text : List Char) : Option Bytes :=
  decodeBase64 base64Value
    ((utf8 (String.ofList text)).filter fun c => c ≠ 0x3D && !isAsciiWhitespace c)

/-- `token_from_authorization` -/
def tokenFromAuthorization (header : String) : Option String :=
  match cutAt ' ' header.toList with
  | none => none
  | some (scheme, rest) =>
      let rest := trim rest
      if rest = [] then none
      else if isBearerOrToken scheme then some (String.ofList rest)
      else if isBasic scheme then
        match (base64Decode rest).bind fromUtf8 with
        | none => none
        | some text =>
            match cutAt ':' text.toList with
            | none => none
            | some (_, password) => if password = [] then none else some (String.ofList password)
      else none

/-- `credential_is_blank` -/
def credentialIsBlank (header : String) : Bool :=
  let (scheme, rest) := (cutAt ' ' header.toList).getD (header.toList, [])
  let rest := trim rest
  if !isBearerOrToken scheme && !isBasic scheme then false
  else if rest = [] then true
  else if isBasic scheme then
    (((base64Decode rest).bind fromUtf8).bind fun text =>
      (cutAt ':' text.toList).map fun p => p.2.isEmpty).getD false
  else false

/-- `verify_token`. `reloaded` is what a re-read of the store on a miss puts in the
place of the tokens, if one is due and finds other content; the clock then says
`again`. -/
def verifyToken (tokens : TokenIndex) (reloaded : Option TokenIndex) (digest : String)
    (now again : Nat) : Except TokenError TokenIdentity :=
  match tokens.verify digest now with
  | .ok identity => .ok identity
  | .error e =>
      match reloaded with
      | some tokens => tokens.verify digest again
      | none => .error e

inductive DataAuthMode where
  | off
  | optional
  | required
  deriving DecidableEq, Repr

inductive Action where
  | read
  | write
  deriving DecidableEq, Repr

def Scope.allowsRead : Scope → Bool
  | .read | .readWrite => true
  | .write => false

def Scope.allowsWrite : Scope → Bool
  | .write | .readWrite => true
  | .read => false

def Scope.allows (scope : Scope) : Action → Bool
  | .read => scope.allowsRead
  | .write => scope.allowsWrite

structure Decision where
  identity : Option TokenIdentity
  granted : Option (List String)
  deriving DecidableEq, Repr

def Decision.anonymous : Decision := ⟨none, none⟩

def allowsDatabase (identity : TokenIdentity) (database : String) : Bool :=
  identity.databases.isEmpty || identity.databases.contains database

/-- `guard::decide` -/
def guardDecide (mode : DataAuthMode) (presented : Option (Except TokenError TokenIdentity))
    (action : Action) (database : String) : Except TokenError Decision :=
  if mode = .off then .ok .anonymous
  else
    match presented with
    | some (.error e) => .error e
    | none => if mode = .optional then .ok .anonymous else .error .missing
    | some (.ok identity) =>
        if !identity.scope.allows action || !allowsDatabase identity database then
          .error .forbidden
        else
          .ok ⟨some identity,
            if identity.authorizations.isEmpty then none else some identity.authorizations⟩

section Decide

variable (sha : String → String) (tokens : TokenIndex) (reloaded : Option TokenIndex)
  (now again : Nat)

/-- What a header presents: nothing, where its credential is blank. -/
def presentedBy (header : String) : Option (Except TokenError TokenIdentity) :=
  match tokenFromAuthorization header with
  | some secret => some (verifyToken tokens reloaded (sha secret) now again)
  | none => if credentialIsBlank header then none else some (.error .invalid)

/-- `decide_data` -/
def decideData (mode : DataAuthMode) (authorization : Option String) (action : Action)
    (db : String) : Except TokenError Decision :=
  let presented :=
    if mode = .off then none
    else authorization.bind (presentedBy sha tokens reloaded now again)
  guardDecide mode presented action db

end Decide

end TimeLake.Auth
