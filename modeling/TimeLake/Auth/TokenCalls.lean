import TimeLake.Auth.Tokens
import TimeLake.Library.AssocMap

/-!
Any number of `Auth` instances over one `tokens.json`. A call is split at its
locks and store accesses: `issue_token` and `revoke_token` change the memory
under the write lock and persist afterwards, `persist_tokens` holds the read
lock from the copy it makes until the hash of what it put is noted, and
`reload_tokens` gets, compares, swaps and notes in four steps. `verify_token`
only looks, and reloads like any other caller.

A node keeps the hash of the content it last loaded or wrote; here it keeps the
content. Four things are not data of the program: the records ever issued, those
of the calls that have returned, the ids whose revocation has returned, and
which nodes have since finished a reload begun after it.
-/

namespace TimeLake.Auth.Tokens

open TimeLake.Library TimeLake.Auth

/-- `tokens.json`, if it is there. -/
abbrev Content := Option (List TokenRecord)

abbrev Content.records (c : Content) : List TokenRecord := c.getD []

structure Node where
  tokens : TokenIndex
  loaded : Content
  deriving DecidableEq

inductive Change where
  | issue (r : TokenRecord)
  | revoke (id : String)
  deriving DecidableEq

/-- Where a call stands. -/
inductive Call where
  | changed (c : Change)
  | putting (c : Change) (doc : List TokenRecord)
  | got (known : List String) (content : Content)
  | differs (known : List String) (content : Content)
  | swapped (known : List String) (content : Content)
  deriving DecidableEq

structure State (ι : Type) where
  store : Content
  nodes : ι → Option Node
  calls : AssocMap Nat (ι × Call)
  issued : List TokenRecord
  issuedOk : List TokenRecord
  revokedOk : List String
  informed : List (ι × String)

inductive Action (ι : Type) where
  | open (i : ι)
  | issue (k : Nat) (i : ι) (r : TokenRecord)
  | revoke (k : Nat) (i : ι) (id : String)
  | put (k : Nat)
  | wrote (k : Nat)
  | reload (k : Nat) (i : ι)
  | compare (k : Nat)
  | swap (k : Nat)
  | reloaded (k : Nat)

variable {ι : Type} [DecidableEq ι] {H : Type} [DecidableEq H]

def initial : State ι := ⟨none, fun _ => none, ∅, [], [], [], []⟩

/-- The call holds the read lock of its node's tokens. -/
def Call.locks : Call → Bool
  | .putting _ _ => true
  | _ => false

namespace State

def locked (s : State ι) (i : ι) : Bool :=
  (AssocMap.values s.calls).any fun c => c.1 = i && c.2.locks

def call (s : State ι) (k : Nat) : Option (ι × Node × Call) :=
  match s.calls.lookup k with
  | some (i, c) => (s.nodes i).map fun node => (i, node, c)
  | none => none

def setNode (s : State ι) (i : ι) (node : Node) : State ι :=
  { s with nodes := Function.update s.nodes i (some node) }

def setCall (s : State ι) (k : Nat) (i : ι) (c : Call) : State ι :=
  { s with calls := s.calls.insert k (i, c) }

def endCall (s : State ι) (k : Nat) : State ι := { s with calls := s.calls.erase k }

/-- A reload returns. -/
def inform (s : State ι) (i : ι) (known : List String) : State ι :=
  { s with informed := known.map (i, ·) ++ s.informed }

/-- A change returns. -/
def returned (s : State ι) : Change → State ι
  | .issue r => { s with issuedOk := r :: s.issuedOk }
  | .revoke id => { s with revokedOk := id :: s.revokedOk }

end State

def openNode (s : State ι) (i : ι) : Option (State ι) :=
  match s.nodes i with
  | none => some (s.setNode i ⟨.fromRecords (Content.records s.store), s.store⟩)
  | some _ => none

def issue (s : State ι) (k : Nat) (i : ι) (r : TokenRecord) : Option (State ι) :=
  match s.nodes i, s.calls.lookup k with
  | some node, none =>
      if s.locked i || r.revoked then none
      else some { (s.setNode i { node with tokens := node.tokens.insert r }).setCall k i
        (.changed (.issue r)) with issued := r :: s.issued }
  | _, _ => none

/-- An id that is not there or is revoked already is answered at once. -/
def revoke (s : State ι) (k : Nat) (i : ι) (id : String) : Option (State ι) :=
  match s.nodes i, s.calls.lookup k with
  | some node, none =>
      if s.locked i then none
      else match node.tokens.revoke id with
        | some tokens =>
            some ((s.setNode i { node with tokens := tokens }).setCall k i (.changed (.revoke id)))
        | none => some s
  | _, _ => none

def put (s : State ι) (k : Nat) : Option (State ι) :=
  match s.call k with
  | some (i, node, .changed c) =>
      some { s.setCall k i (.putting c node.tokens.records) with
        store := some node.tokens.records }
  | _ => none

def wrote (s : State ι) (k : Nat) : Option (State ι) :=
  match s.call k with
  | some (i, node, .putting c doc) =>
      some (((s.setNode i { node with loaded := some doc }).endCall k).returned c)
  | _ => none

def reload (s : State ι) (k : Nat) (i : ι) : Option (State ι) :=
  match s.nodes i, s.calls.lookup k with
  | some _, none => some (s.setCall k i (.got s.revokedOk s.store))
  | _, _ => none

def compare (digest : Content → H) (s : State ι) (k : Nat) : Option (State ι) :=
  match s.call k with
  | some (i, node, .got known content) =>
      if digest content = digest node.loaded then some ((s.endCall k).inform i known)
      else some (s.setCall k i (.differs known content))
  | _ => none

def swap (s : State ι) (k : Nat) : Option (State ι) :=
  match s.call k with
  | some (i, node, .differs known content) =>
      if s.locked i then none
      else some (s.setNode i { node with tokens := .fromRecords (Content.records content) }
        |>.setCall k i (.swapped known content))
  | _ => none

def reloaded (s : State ι) (k : Nat) : Option (State ι) :=
  match s.call k with
  | some (i, node, .swapped known content) =>
      some (((s.setNode i { node with loaded := content }).endCall k).inform i known)
  | _ => none

def step (digest : Content → H) (s : State ι) : Action ι → Option (State ι)
  | .open i => openNode s i
  | .issue k i r => issue s k i r
  | .revoke k i id => revoke s k i id
  | .put k => put s k
  | .wrote k => wrote s k
  | .reload k i => reload s k i
  | .compare k => compare digest s k
  | .swap k => swap s k
  | .reloaded k => reloaded s k

end TimeLake.Auth.Tokens
