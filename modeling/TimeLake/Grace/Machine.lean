import TimeLake.Cluster.Objects
import TimeLake.Admin.CrossField
import TimeLake.Library.AssocMap

/-!
Queries and the garbage collector on one node, over a clock. A query fixes its file
list, waits for one of the permits of the admission semaphore and then runs for as
long as the timeout allows; a file that leaves the catalog waits out the grace period
in the deletion queue. The grace period is read at every pass from the configuration in
force, the timeout and the permits are those the node booted with.

What the node writes and deletes meanwhile is the machine of `Cluster`, with one node;
`deferred` has its deletion queue again with the time each path came. All times are in
nanoseconds of the monotonic clock.
-/

namespace TimeLake.Grace

open TimeLake.Library TimeLake.Catalog TimeLake.Rows TimeLake.Store

inductive Stage where
  | listing
  | waiting
  | running (acquired : Nat)
  deriving DecidableEq, Repr

/-- A call of `sql_batches` that has not returned: the paths it has listed, each with
the time, and how far it is. -/
structure Query where
  listed : List (Nat × String)
  stage : Stage

structure State where
  site : Cluster.State Unit
  now : Nat
  admin : Admin.Memory × Admin.Documents
  /-- `QueryEnv::timeout`, in seconds. -/
  timeout : Nat
  permits : Nat
  /-- `pending_gc`. -/
  deferred : List (Nat × String)
  queries : AssocMap Nat Query

def second : Nat := 1000000000

namespace State

def grace (s : State) : Nat := s.admin.1.cfg.gcGraceSecs * second

/-- When `tokio::time::timeout` ends a query that got its permit at this time. -/
def deadline (s : State) (acquired : Nat) : Nat := acquired + s.timeout * second

/-- No query runs past its deadline. -/
def inTime (s : State) : Bool :=
  s.queries.values.all fun q =>
    match q.stage with
    | .running acquired => s.now ≤ s.deadline acquired
    | _ => true

end State

inductive Action where
  | tick (d : Nat)
  | call (id : Nat)
  | list (id : Nat) (key : TableKey)
  | queue (id : Nat)
  | acquire (id : Nat)
  /-- The call returns, or its client goes away. -/
  | finish (id : Nat)
  | config (c : Admin.ConfigCall × Admin.Put)
  /-- A write, a flush, a compaction, a tombstone rewrite, a retention pass, a drop, or
  the next deletion of a pass of the garbage collector. -/
  | site (a : Cluster.Action Unit)
  | runGc (k : Nat)
  | boot (replayed : List (TableKey × Row)) (env : Admin.Env)

/-- `catalog.files_for`, as the paths of the files. -/
def filesFor (site : Cluster.State Unit) (key : TableKey) : List String :=
  ((indexOf (site.log.take (site.node ()).head)).files.filesFor key).map FileMeta.path

/-- `defer_gc`: what has come into the queue since, with the time. -/
def stamped (s : State) (site : Cluster.State Unit) : List (Nat × String) :=
  s.deferred ++ ((site.node ()).pendingGc.drop s.deferred.length).map fun p => (s.now, p)

/-- `run_gc` up to its first deletion: what is past the grace period is taken out of
the queue. -/
def runGc (s : State) (k : Nat) : Option State :=
  match s.site.task () k with
  | none =>
      let ready := s.deferred.filter fun d => s.grace ≤ s.now - d.1
      let keep := s.deferred.filter fun d => !(s.grace ≤ s.now - d.1)
      let drained := s.site.setNode () { s.site.node () with pendingGc := keep.map Prod.snd }
      some { s with
        site := drained.setTask () k (some (.gc (ready.map Prod.snd)))
        deferred := keep }
  | some _ => none

/-- A process start over the stored documents. -/
def boot (s : State) (replayed : List (TableKey × Row)) (env : Admin.Env) : Option State :=
  (Cluster.restart s.site () replayed).map fun site =>
    let m := Admin.boot env s.admin.2
    { site := site
      now := s.now
      admin := (m, s.admin.2)
      timeout := max 1 m.cfg.queryTimeoutSecs
      permits := max 1 m.cfg.maxConcurrentQueries
      deferred := []
      queries := ∅ }

def step (s : State) : Action → Option State
  | .tick d =>
      let t := { s with now := s.now + d }
      if t.inTime then some t else none
  | .call id =>
      match s.queries.lookup id with
      | none => some { s with queries := s.queries.insert id ⟨[], .listing⟩ }
      | some _ => none
  | .list id key =>
      match s.queries.lookup id with
      | some ⟨listed, .listing⟩ =>
          let files := (filesFor s.site key).map fun p => (s.now, p)
          some { s with queries := s.queries.insert id ⟨listed ++ files, .listing⟩ }
      | _ => none
  | .queue id =>
      match s.queries.lookup id with
      | some ⟨listed, .listing⟩ =>
          some { s with queries := s.queries.insert id ⟨listed, .waiting⟩ }
      | _ => none
  | .acquire id =>
      match s.queries.lookup id, s.permits with
      | some ⟨listed, .waiting⟩, permits + 1 =>
          some { s with
            queries := s.queries.insert id ⟨listed, .running s.now⟩
            permits := permits }
      | _, _ => none
  | .finish id =>
      match s.queries.lookup id with
      | some ⟨_, .running _⟩ =>
          some { s with queries := s.queries.erase id, permits := s.permits + 1 }
      | some _ => some { s with queries := s.queries.erase id }
      | none => none
  | .config c => (Admin.configStep s.admin c).map fun admin => { s with admin := admin }
  | .site (.gcStart _ _ _) | .site (.restart _ _) => none
  | .site a =>
      (Cluster.step s.site a).map fun site =>
        { s with site := site, deferred := stamped s site }
  | .runGc k => runGc s k
  | .boot replayed env => boot s replayed env

/-- A node that has booted over an empty store. -/
def start (env : Admin.Env) (docs : Admin.Documents) : State where
  site := Cluster.initial
  now := 0
  admin := (Admin.boot env docs, docs)
  timeout := max 1 (Admin.boot env docs).cfg.queryTimeoutSecs
  permits := max 1 (Admin.boot env docs).cfg.maxConcurrentQueries
  deferred := []
  queries := ∅

end TimeLake.Grace
