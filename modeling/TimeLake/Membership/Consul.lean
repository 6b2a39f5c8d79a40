import TimeLake.Library.JsonFields
import TimeLake.Library.Run
import TimeLake.Library.Tally
import TimeLake.Membership.Nodes

/-!
Discovery over Consul. A node registers itself, passes its check and asks who is healthy,
again and again; the answer replaces what it knew, and where any of the three calls fails
it keeps what it knew. Calls of different nodes interleave, checks run out, registrations
are dropped or forgotten, others may register under the service's name, and a call may
take effect without its caller hearing of it.

Of Consul itself the entry it makes of a registration and the order of its answers are
left open.
-/

namespace TimeLake.Membership

open TimeLake.Library TimeLake.Library.AssocMap

section Texts

def service : String := "timelakedb"

def checkId (id : String) : String := "service:" ++ id

/-- `p.parse().unwrap_or(0)` at sixteen bits. -/
def parsePort (p : List Char) : Nat :=
  match Ingest.parseU64 p with
  | some n => if n < 2 ^ 16 then n else 0
  | none => 0

def splitHostPort (addr : String) : String × Nat :=
  match rcutAt ':' addr.toList with
  | some (host, port) => (String.ofList host, parsePort port)
  | none => (addr, 0)

/-- The body of the registration. -/
def registration (this : NodeInfo) : Json Nat :=
  .obj [("ID", .str this.id), ("Name", .str service),
    ("Address", .str (splitHostPort this.address).1),
    ("Port", .num (splitHostPort this.address).2),
    ("Meta", .obj [("role", .str this.role.asStr), ("cluster_addr", .str this.address),
      ("data_addr", .str this.dataAddress)]),
    ("Check", .obj [("CheckID", .str (checkId this.id)), ("TTL", .str "30s"),
      ("DeregisterCriticalServiceAfter", .str "1m")])]

/-- One entry of the answer as a peer; what has no role is skipped. -/
def memberOf (selfId : String) (entry : Json Nat) : Option NodeInfo :=
  let svc := entry.field "Service"
  let id := (svc.field "ID").asStr.getD ""
  if id = "" ∨ id = selfId then none
  else
    let data := svc.field "Meta"
    match (data.field "role").asStr.bind fun r => (Role.parse r).toOption with
    | some role => some ⟨id, role, (data.field "cluster_addr").asStr.getD "",
        (data.field "data_addr").asStr.getD ""⟩
    | none => none

/-- A body that is no JSON, or no array, has no members. -/
def parseMembers (body : Option (Json Nat)) (selfId : String) : List NodeInfo :=
  match body with
  | some value => value.asArray.filterMap (memberOf selfId)
  | none => []

def fetchMembers (body : Option (Json Nat)) (selfId : String) : List NodeInfo :=
  (parseMembers body selfId).insertionSort fun a b => a.id ≤ b.id

end Texts

section Machine

/-- What Consul answers with: an entry has the id and the meta data that were registered, and
the entries come in some order. -/
structure ConsulApi where
  entry : Json Nat → Json Nat
  entry_id : ∀ payload, ((entry payload).field "Service").field "ID" = payload.field "ID"
  entry_meta : ∀ payload, ((entry payload).field "Service").field "Meta" = payload.field "Meta"
  arrange : List (Json Nat) → List (Json Nat)
  perm : ∀ payloads, (arrange payloads).Perm payloads

structure Registration where
  payload : Json Nat
  passing : Bool

inductive Progress where
  | idle | registered | passed
  deriving DecidableEq, Repr

structure Node where
  info : NodeInfo
  progress : Progress
  members : List NodeInfo
  refreshes : UInt64
  refreshFailures : UInt64
  degraded : Bool

structure State where
  consul : AssocMap String Registration
  nodes : AssocMap String Node

/-- What comes back from asking: nothing, what Consul has to say, or some other body. -/
inductive Reply where
  | lost
  | consul
  | other (body : Option (Json Nat))

/-- A call that is `reached` has its effect; only one that is also `answered` succeeds. A
registration that is made anew keeps the state of its check or not. -/
inductive Action where
  | join (this : NodeInfo)
  | leave (id : String)
  | register (id : String) (reached answered kept : Bool)
  | pass (id : String) (reached answered : Bool)
  | fetch (id : String) (reply : Reply)
  | expire (id : String)
  | deregister (id : String)
  | forget
  | foreign (id : String) (payload : Json Nat)

def start : State := ⟨∅, ∅⟩

/-- A failed refresh leaves the members as they are. -/
def Node.fail (n : Node) : Node :=
  { n with progress := .idle, refreshFailures := n.refreshFailures + 1, degraded := true }

def Node.refreshed (n : Node) (members : List NodeInfo) : Node :=
  { n with progress := .idle, members := members, refreshes := n.refreshes + 1, degraded := false }

variable (api : ConsulApi)

/-- The answer to `health/service?passing=true`. -/
def health (consul : AssocMap String Registration) : Json Nat :=
  .arr ((api.arrange (consul.gather fun reg =>
    if reg.passing then some reg.payload else none)).map api.entry)

def State.put (s : State) (id : String) (n : Node) : State :=
  { s with nodes := s.nodes.insert id n }

def register (s : State) (id : String) (n : Node) (reached answered kept : Bool) : Option State :=
  if n.progress = .idle then
    let passing := kept && (s.consul.lookup id).any (·.passing)
    let s := if reached then
        { s with consul := s.consul.insert id (⟨registration n.info, passing⟩ : Registration) }
      else s
    some (s.put id (if reached && answered then { n with progress := .registered } else n.fail))
  else none

/-- Passing the check of a service that Consul does not know is refused. -/
def pass (s : State) (id : String) (n : Node) (reached answered : Bool) : Option State :=
  if n.progress = .registered then
    match s.consul.lookup id with
    | some reg =>
        let s := if reached then
            { s with consul := s.consul.insert id { reg with passing := true } }
          else s
        some (s.put id (if reached && answered then { n with progress := .passed } else n.fail))
    | none => some (s.put id n.fail)
  else none

def fetch (s : State) (id : String) (n : Node) (reply : Reply) : Option State :=
  if n.progress = .passed then
    match reply with
    | .lost => some (s.put id n.fail)
    | .consul => some (s.put id (n.refreshed (fetchMembers (some (health api s.consul)) id)))
    | .other body => some (s.put id (n.refreshed (fetchMembers body id)))
  else none

/-- One process for an id at a time. What others register has no role that could be read, and no
id of a node that is up. -/
def step (s : State) : Action → Option State
  | .join this =>
      match s.nodes.lookup this.id with
      | some _ => none
      | none => if this.id = "" then none else some (s.put this.id ⟨this, .idle, [], 0, 0, false⟩)
  | .leave id => some { s with nodes := s.nodes.erase id }
  | .register id reached answered kept =>
      (s.nodes.lookup id).bind fun n => register s id n reached answered kept
  | .pass id reached answered => (s.nodes.lookup id).bind fun n => pass s id n reached answered
  | .fetch id reply => (s.nodes.lookup id).bind fun n => fetch api s id n reply
  | .expire id =>
      (s.consul.lookup id).map fun reg =>
        { s with consul := s.consul.insert id { reg with passing := false } }
  | .deregister id => some { s with consul := s.consul.erase id }
  | .forget => some { s with consul := ∅ }
  | .foreign id payload =>
      if (s.nodes.lookup id).isNone && (memberOf "" (api.entry payload)).isNone then
        some { s with consul := s.consul.insert id (⟨payload, true⟩ : Registration) }
      else none

/-- The nodes that joined so far. -/
def joined : List Action → List NodeInfo
  | [] => []
  | .join this :: rest => this :: joined rest
  | _ :: rest => joined rest

end Machine

end TimeLake.Membership
