import Mathlib.Data.String.Basic
import TimeLake.Ingest.LineProtocol
import TimeLake.Library.Pairs

/-!
Administrators and their sessions (`crates/auth/src/lib.rs`). Argon2 is a
parameter: whether a stored hash parses, and whether a password verifies
against it. A new hash is salted at random, so it is an input of the operation
that sets it.
-/

namespace TimeLake.Auth

open TimeLake.Library
open TimeLake.Ingest (isWhiteSpace)

inductive Role where
  | viewer
  | operator
  | admin
  deriving DecidableEq, Repr

structure Principal where
  username : String
  role : Role
  passwordHash : String
  mustChangePassword : Bool
  createdAtSecs : Nat
  lastLoginSecs : Option Nat
  isDefaultCredential : Bool
  deriving DecidableEq, Repr

def defaultUser : String := "admin"

def defaultPassword : String := "admin"

def minPasswordLen : Nat := 8

/-- A put of the store; one that fails may have written the file all the same. -/
inductive PutOutcome where
  | ok
  | failed
  | failedWritten
  deriving DecidableEq, Repr

structure Argon2 where
  parses : String → Bool
  verifies : (password hash : String) → Bool

/-- The check of `login`. -/
def Argon2.accepts (argon : Argon2) (password hash : String) : Bool :=
  argon.parses hash && argon.verifies password hash

/-- `BTreeMap<String, Principal>`, a principal under its own name. -/
structure Principals where
  byName : List (String × Principal)
  sorted : Increasing byName
  keyed : ∀ p ∈ byName, p.1 = p.2.username
  deriving DecidableEq

namespace Principals

def empty : Principals := ⟨[], List.Pairwise.nil, by simp⟩

def get (ps : Principals) (username : String) : Option Principal := ps.byName.lookup username

theorem keyed_set (ps : Principals) (p : Principal) :
    ∀ q ∈ insertPair p.username p ps.byName, q.1 = q.2.username := by
  intro q hq
  rcases mem_insertPair hq with rfl | hold
  · rfl
  · exact ps.keyed q hold

def set (ps : Principals) (p : Principal) : Principals :=
  ⟨insertPair p.username p ps.byName, ps.sorted.insertPair p.username p, ps.keyed_set p⟩

@[simp] theorem get_empty (username : String) : empty.get username = none := rfl

theorem get_set (ps : Principals) (p : Principal) (username : String) :
    (ps.set p).get username = if username = p.username then some p else ps.get username :=
  lookup_insertPair p.username p ps.byName username

theorem username_of_get {ps : Principals} {username : String} {p : Principal}
    (h : ps.get username = some p) : p.username = username :=
  (ps.keyed _ (mem_of_lookup h)).symm

/-- The password hash and the default-credential flag. -/
def cred (ps : Principals) (username : String) : Option (String × Bool) :=
  (ps.get username).map fun p => (p.passwordHash, p.isDefaultCredential)

def creds (ps : Principals) : List (String × String × Bool) :=
  ps.byName.map fun p => (p.1, p.2.passwordHash, p.2.isDefaultCredential)

theorem cred_eq_of_creds {ps qs : Principals} (h : ps.creds = qs.creds) (username : String) :
    ps.cred username = qs.cred username := by
  have hlookup : ∀ ps : Principals, ps.creds.lookup username = ps.cred username := fun ps =>
    lookup_map_snd (fun _ (p : Principal) => (p.passwordHash, p.isDefaultCredential)) ps.byName
      username
  rw [← hlookup ps, h, hlookup qs]

theorem cred_set (ps : Principals) (p : Principal) (username : String) :
    (ps.set p).cred username = if username = p.username then
      some (p.passwordHash, p.isDefaultCredential) else ps.cred username := by
  rw [cred, get_set]
  split <;> rfl

theorem cred_of_get {ps : Principals} {username : String} {p : Principal}
    (h : ps.get username = some p) :
    ps.cred username = some (p.passwordHash, p.isDefaultCredential) := by
  rw [cred, h]
  rfl

end Principals

/-- The principal that `open` seeds in an empty store. -/
def seed (bootstrapPassword : Option String) (hash : String) (now : Nat) : Principal where
  username := defaultUser
  role := .admin
  passwordHash := hash
  mustChangePassword := true
  createdAtSecs := now
  lastLoginSecs := none
  isDefaultCredential := bootstrapPassword.all fun p => p.toList.all isWhiteSpace

/-- The principal with the time of a login. -/
def touch (ps : Principals) (username : String) (now : Nat) : Principals :=
  match ps.get username with
  | some p => ps.set { p with lastLoginSecs := some now }
  | none => ps

theorem cred_touch (ps : Principals) (username : String) (now : Nat) (other : String) :
    (touch ps username now).cred other = ps.cred other := by
  unfold touch
  split
  · next p hp =>
      rw [Principals.cred_set]
      split
      · next heq =>
          have hname : p.username = username := Principals.username_of_get hp
          rw [heq.trans hname, Principals.cred_of_get hp]
      · rfl
  · rfl

section ChangePassword

inductive PasswordError where
  | tooShort
  | trivial
  | unchanged
  | noPrincipal
  | badHash
  | incorrect
  | hashing
  | persist
  deriving DecidableEq, Repr

/-- The texts `change_password` answers with; those of the libraries it calls
are not in them. -/
def PasswordError.text : PasswordError → String
  | .tooShort => "password must be at least 8 characters"
  | .trivial => "password must not be the default or the username"
  | .unchanged => "new password must differ from the current one"
  | .noPrincipal => "no such principal"
  | .badHash => ""
  | .incorrect => "current password is incorrect"
  | .hashing => "password hash: "
  | .persist => "persist: "

/-- `trim_end_matches(['\r', '\n'])` -/
def trimNewlines (s : String) : String :=
  String.ofList (s.toList.rdropWhile fun c => c = '\r' || c = '\n')

/-- `eq_ignore_ascii_case` -/
def eqIgnoreAsciiCase (a b : String) : Bool :=
  a.toList.map Char.toLower = b.toList.map Char.toLower

def checkNew (username old new : String) : Except PasswordError String :=
  let new := trimNewlines new
  if new.length < minPasswordLen then .error .tooShort
  else if new = defaultPassword || eqIgnoreAsciiCase new username then .error .trivial
  else if new = old then .error .unchanged
  else .ok new

/-- The hash a change of a password replaced and the one it set. -/
structure Change where
  old : String
  new : String
  deriving DecidableEq, Repr

/-- `change_password` up to the release of the lock. `hash` is what
`hash_password` answers for the new password. -/
def changePassword (argon : Argon2) (ps : Principals) (username old new : String)
    (hash : Option String) : Except PasswordError (Principals × Change) :=
  match checkNew username old new with
  | .error e => .error e
  | .ok _ =>
      match ps.get username with
      | none => .error .noPrincipal
      | some p =>
          if !argon.parses p.passwordHash then .error .badHash
          else if !argon.verifies old p.passwordHash then .error .incorrect
          else match hash with
            | none => .error .hashing
            | some h => .ok (ps.set { p with
                passwordHash := h
                mustChangePassword := false
                isDefaultCredential := false }, ⟨p.passwordHash, h⟩)

variable {argon : Argon2} {ps ps' : Principals} {username old new : String}
  {hash : Option String} {c : Change}

/-- A password that is changed was the old one, and nothing else of the map is
another. -/
theorem changePassword_ok (h : changePassword argon ps username old new hash = .ok (ps', c)) :
    ∃ p, hash = some c.new ∧ ps.get username = some p ∧ p.passwordHash = c.old ∧
      argon.accepts old c.old = true ∧ ps' = ps.set { p with
        passwordHash := c.new
        mustChangePassword := false
        isDefaultCredential := false } := by
  unfold changePassword at h
  split at h
  · cases h
  · split at h
    · cases h
    · next p hp =>
        split at h
        · cases h
        · next hparses =>
            split at h
            · cases h
            · next hverifies =>
                split at h
                · cases h
                · cases h
                  have hboth : argon.accepts old p.passwordHash = true := by
                    simp only [Bool.not_eq_true', Bool.not_eq_false] at hparses hverifies
                    simp [Argon2.accepts, hparses, hverifies]
                  exact ⟨p, rfl, hp, rfl, hboth, rfl⟩

end ChangePassword

section Sessions

/-- Instants are nanoseconds of a monotonic clock. -/
structure Session where
  username : String
  role : Role
  mustChangePassword : Bool
  csrf : String
  id : String
  created : Nat
  lastSeen : Nat
  deriving DecidableEq, Repr

structure SessionInfo where
  username : String
  role : Role
  mustChangePassword : Bool
  csrf : String
  id : String
  deriving DecidableEq, Repr

def sessionIdle : Nat := 30 * 60 * 10 ^ 9

def sessionAbsolute : Nat := 12 * 60 * 60 * 10 ^ 9

def Session.info (s : Session) : SessionInfo :=
  ⟨s.username, s.role, s.mustChangePassword, s.csrf, s.id⟩

def Session.expired (s : Session) (now : Nat) : Bool :=
  sessionAbsolute < now - s.created || sessionIdle < now - s.lastSeen

end Sessions

end TimeLake.Auth
