import TimeLake.Auth.Principals
import TimeLake.Library.AssocMap

/-!
Any number of `Auth` instances over one `principals.json`. A node reads the file
when it opens and never again. `login` reads its principal, verifies, inserts the
session, notes the time and persists, each in a step of its own;
`change_password` verifies and sets the hash under the write lock, persists, and
then drops the sessions. `persist` holds the read lock from the copy to the end
of the put, so what it puts is the memory at that moment. A put may fail, and it
may fail although the file was written.

Not data of the program: the content a node last read or wrote, the hashes
`hash_password` has made and those that were ever stored, the changes made in
memory and those whose call has returned `Ok`, what the login of a session
verified, and which changes had returned when a login read its principal.
-/

namespace TimeLake.Auth.Passwords

open TimeLake.Library TimeLake.Auth

/-- A session with the password its login gave and the hash that verified it. -/
structure Live where
  session : Session
  password : String
  verified : String
  deriving DecidableEq

structure Node where
  principals : Principals
  sessions : AssocMap String Live
  base : Principals
  ready : Bool

inductive Call where
  | seeding
  | loginRead (username password : String) (principal : Option Principal) (done : List Change)
  | loginVerified (username password : String) (principal : Principal) (done : List Change)
  | loginOpened (username : String)
  | loginTouched
  | changed (username : String) (change : Change)
  | changePut (username : String) (change : Change)
  deriving DecidableEq

structure State (ι : Type) where
  store : Principals
  nodes : ι → Option Node
  calls : AssocMap Nat (ι × Call)
  made : List (ι × String)
  stored : List String
  set : List ((ι × String) × Change)
  changedOk : List ((ι × String) × Change)

inductive Action (ι : Type) where
  | open (k : Nat) (i : ι) (bootstrapPassword : Option String) (hash : String) (now : Nat)
  | login (k : Nat) (i : ι) (username password : String)
  | verify (k : Nat)
  | insert (k : Nat) (token csrf id : String) (now : Nat)
  | touch (k : Nat) (now : Nat)
  | change (k : Nat) (i : ι) (username old new : String) (hash : Option String)
  | persist (k : Nat) (outcome : PutOutcome)
  | retain (k : Nat)
  | session (i : ι) (token : String) (now : Nat)
  | logout (i : ι) (token : String)

variable {ι : Type} [DecidableEq ι]

def hashes (ps : Principals) : List String := ps.byName.map fun p => p.2.passwordHash

/-- A store with some content; an absent file reads like an empty one. -/
def initial (content : Principals) : State ι :=
  ⟨content, fun _ => none, ∅, [], hashes content, [], []⟩

namespace Node

/-- `session`: what it leaves and what it answers. -/
def session (node : Node) (token : String) (now : Nat) : Node × Option SessionInfo :=
  match node.sessions.lookup token with
  | none => (node, none)
  | some live =>
      if live.session.expired now then
        ({ node with sessions := node.sessions.erase token }, none)
      else
        let live' := { live with session := { live.session with lastSeen := now } }
        ({ node with sessions := node.sessions.insert token live' }, some live.session.info)

def logout (node : Node) (token : String) : Node :=
  { node with sessions := node.sessions.erase token }

def retain (node : Node) (username : String) : Node :=
  { node with
    sessions := AssocMap.keep (fun live => live.session.username ≠ username) node.sessions }

end Node

namespace State

def call (s : State ι) (k : Nat) : Option (ι × Node × Call) :=
  match s.calls.lookup k with
  | some (i, c) => (s.nodes i).map fun node => (i, node, c)
  | none => none

/-- The node, once `open` has returned it. -/
def opened (s : State ι) (i : ι) : Option Node := (s.nodes i).filter fun node => node.ready

def setNode (s : State ι) (i : ι) (node : Node) : State ι :=
  { s with nodes := Function.update s.nodes i (some node) }

def setCall (s : State ι) (k : Nat) (i : ι) (c : Call) : State ι :=
  { s with calls := s.calls.insert k (i, c) }

def endCall (s : State ι) (k : Nat) : State ι := { s with calls := s.calls.erase k }

/-- The changes of a password that have returned on a node. -/
def returned (s : State ι) (i : ι) (username : String) : List Change :=
  valuesAt s.changedOk (i, username)

/-- The memory of a node becomes the content of the file. -/
def write (s : State ι) (i : ι) (node : Node) : State ι :=
  { s.setNode i { node with base := node.principals } with
    store := node.principals
    stored := hashes node.principals ++ s.stored }

end State

def openNode (s : State ι) (k : Nat) (i : ι) (bootstrapPassword : Option String) (hash : String)
    (now : Nat) : Option (State ι) :=
  match s.nodes i, s.calls.lookup k with
  | none, none =>
      if s.store.byName.isEmpty then
        some { (s.setNode i ⟨s.store.set (seed bootstrapPassword hash now), ∅, s.store,
          false⟩).setCall k i .seeding with made := (i, hash) :: s.made }
      else some (s.setNode i ⟨s.store, ∅, s.store, true⟩)
  | _, _ => none

def login (s : State ι) (k : Nat) (i : ι) (username password : String) : Option (State ι) :=
  match s.opened i, s.calls.lookup k with
  | some node, none =>
      some (s.setCall k i (.loginRead username password (node.principals.get username)
        (s.returned i username)))
  | _, _ => none

def verify (argon : Argon2) (s : State ι) (k : Nat) : Option (State ι) :=
  match s.call k with
  | some (i, _, .loginRead username password principal done) =>
      match principal.filter fun p => argon.accepts password p.passwordHash with
      | some p => some (s.setCall k i (.loginVerified username password p done))
      | none => some (s.endCall k)
  | _ => none

def insert (s : State ι) (k : Nat) (token csrf id : String) (now : Nat) : Option (State ι) :=
  match s.call k with
  | some (i, node, .loginVerified username password p _) =>
      some ((s.setNode i { node with
        sessions := node.sessions.insert token
          ⟨⟨p.username, p.role, p.mustChangePassword, csrf, id, now, now⟩, password,
            p.passwordHash⟩ }).setCall k i (.loginOpened username))
  | _ => none

def touched (s : State ι) (k : Nat) (now : Nat) : Option (State ι) :=
  match s.call k with
  | some (i, node, .loginOpened username) =>
      some ((s.setNode i { node with
        principals := touch node.principals username now }).setCall k i .loginTouched)
  | _ => none

/-- A refused change leaves no trace. -/
def change (argon : Argon2) (s : State ι) (k : Nat) (i : ι) (username old new : String)
    (hash : Option String) : Option (State ι) :=
  match s.opened i, s.calls.lookup k with
  | some node, none =>
      match changePassword argon node.principals username old new hash with
      | .ok (principals, c) =>
          some { (s.setNode i { node with principals := principals }).setCall k i
              (.changed username c) with
            made := (i, c.new) :: s.made
            set := ((i, username), c) :: s.set }
      | .error _ => some s
  | _, _ => none

/-- What a call goes on with once its put has succeeded. -/
def wrote (s : State ι) (k : Nat) (i : ι) (node : Node) : Call → Option (State ι)
  | .seeding => some ((s.write i { node with ready := true }).endCall k)
  | .loginTouched => some ((s.write i node).endCall k)
  | .changed username c => some ((s.write i node).setCall k i (.changePut username c))
  | _ => none

/-- A failed put ends the call, with an error but for a login. -/
def persist (s : State ι) (k : Nat) (outcome : PutOutcome) : Option (State ι) :=
  match s.call k with
  | some (i, node, c) =>
      match outcome with
      | .ok => wrote s k i node c
      | .failed => (wrote s k i node c).map fun _ => s.endCall k
      | .failedWritten => (wrote s k i node c).map fun _ => (s.write i node).endCall k
  | none => none

def retain (s : State ι) (k : Nat) : Option (State ι) :=
  match s.call k with
  | some (i, node, .changePut username c) =>
      some { (s.setNode i (node.retain username)).endCall k with
        changedOk := ((i, username), c) :: s.changedOk }
  | _ => none

def session (s : State ι) (i : ι) (token : String) (now : Nat) : Option (State ι) :=
  (s.opened i).map fun node => s.setNode i (node.session token now).1

def logout (s : State ι) (i : ι) (token : String) : Option (State ι) :=
  (s.opened i).map fun node => s.setNode i (node.logout token)

def step (argon : Argon2) (s : State ι) : Action ι → Option (State ι)
  | .open k i bootstrapPassword hash now => openNode s k i bootstrapPassword hash now
  | .login k i username password => login s k i username password
  | .verify k => verify argon s k
  | .insert k token csrf id now => insert s k token csrf id now
  | .touch k now => touched s k now
  | .change k i username old new hash => change argon s k i username old new hash
  | .persist k outcome => persist s k outcome
  | .retain k => retain s k
  | .session i token now => session s i token now
  | .logout i token => logout s i token

end TimeLake.Auth.Passwords
