import TimeLake.Library.Run
import TimeLake.Library.Tally
import TimeLake.Selfmon.Exposition

/-!
How a query gets to run. A request first takes a slot of its client, then waits for one
of the node's permits, and holds both while it is planned, checked, executed and its
answer is put together; a counter of the metrics goes along with each of these. Any number
of requests are on their way at once and each can be dropped wherever it waits, since a
caller may hang up.

What the engine makes of a statement is given with the request: what fails, the plan, and
the batches that the plan yields.
-/

namespace TimeLake.Admission

open TimeLake.Library
open TimeLake.Selfmon (QueryOutcome)

section Plans

inductive Node where
  | copy | ddl | dml | statement
  | projection | filter | window | aggregate | sort | join | repartition | union
  | tableScan | emptyRelation | subquery | subqueryAlias | limit | values | extension
  | distinct | describeTable | unnest | recursiveQuery
  deriving DecidableEq, Repr

/-- `inputs()` of a node are its children; an `EXPLAIN` and an `ANALYZE` hide theirs from it. -/
inductive LogicalPlan where
  | node (kind : Node) (inputs : List LogicalPlan)
  | explain (plan : LogicalPlan)
  | analyze (input : LogicalPlan)

/-- What a node does to the world, if anything. -/
def effectOf : LogicalPlan → Option String
  | .node .copy _ => some "COPY … TO"
  | .node .ddl _ => some "CREATE/DROP (DDL)"
  | .node .dml _ => some "INSERT/UPDATE/DELETE"
  | .node .statement _ => some "a session/transaction statement"
  | _ => none

def notPermitted (op : String) : String :=
  op ++ " is not permitted here: this endpoint executes read-only SQL " ++
    "(SELECT, SHOW, DESCRIBE, EXPLAIN). See SECURITY.md."

mutual

def ensureReadOnly : LogicalPlan → Except String Unit
  | .node kind inputs =>
      match effectOf (.node kind inputs) with
      | some op => .error (notPermitted op)
      | none => ensureInputs inputs
  | .explain plan => ensureReadOnly plan
  | .analyze input => ensureReadOnly input

def ensureInputs : List LogicalPlan → Except String Unit
  | [] => .ok ()
  | child :: rest =>
      match ensureReadOnly child with
      | .error e => .error e
      | .ok _ => ensureInputs rest

end

mutual

/-- All nodes of a plan, those behind an `EXPLAIN` or `ANALYZE` among them. -/
def LogicalPlan.nodes : LogicalPlan → List LogicalPlan
  | .node kind inputs => .node kind inputs :: inputNodes inputs
  | .explain plan => .explain plan :: plan.nodes
  | .analyze input => .analyze input :: input.nodes

def inputNodes : List LogicalPlan → List LogicalPlan
  | [] => []
  | child :: rest => child.nodes ++ inputNodes rest

end

end Plans

section Limiter

structure ClientLimiter where
  cap : Nat
  active : AssocMap String Nat
  rejected : UInt64

/-- The key whose slot is to be given back, if one was taken. -/
abbrev ClientGuard := Option String

def ClientLimiter.new (cap : Nat) : ClientLimiter := ⟨cap, ∅, 0⟩

/-- The entry is made before the count is compared, so a refusal writes it back. -/
def ClientLimiter.admit (l : ClientLimiter) (key : Option String) :
    ClientLimiter × Option ClientGuard :=
  if l.cap = 0 then (l, some none)
  else match key with
    | none => (l, some none)
    | some k =>
        let n := (l.active.lookup k).getD 0
        if l.cap ≤ n then
          ({ l with active := l.active.insert k n, rejected := l.rejected + 1 }, none)
        else ({ l with active := l.active.insert k (n + 1) }, some (some k))

/-- The drop of a guard. -/
def ClientLimiter.release (l : ClientLimiter) : ClientGuard → ClientLimiter
  | none => l
  | some k =>
      match l.active.lookup k with
      | none => l
      | some n =>
          if n - 1 = 0 then { l with active := l.active.erase k }
          else { l with active := l.active.insert k (n - 1) }

end Limiter

section Requests

variable {β : Type*}

/-- A request: who asks, and what the engine answers at each stage of its statement. -/
structure Request (β : Type*) where
  key : Option String
  db : String
  identity : Option String
  assembly : Option String
  register : Option String
  plan : Except String LogicalPlan
  execute : Option String
  stream : Except String (List (Except String β))

/-- How the work on a statement ends. -/
inductive Ending (β : Type*) where
  | answer (batches : List β)
  | failed (stage : String)
  | refused (message : String)
  | oversized (cap rows : Nat)
  | timedOut

def Ending.outcome : Ending β → QueryOutcome
  | .answer _ => .ok
  | .failed _ => .failed
  | .refused _ | .oversized .. => .refused
  | .timedOut => .timeout

def Ending.isOversized : Ending β → Bool
  | .oversized .. => true
  | _ => false

def rowsOf (numRows : β → Nat) (batches : List β) : Nat := (batches.map numRows).sum

/-- The rows of the record: those of an answer, and none otherwise. -/
def Ending.rows (numRows : β → Nat) : Ending β → Nat
  | .answer batches => rowsOf numRows batches
  | _ => 0

/-- `{:08x}` -/
def padHex (n : Nat) : List Char :=
  List.replicate (8 - (Nat.toDigits 16 n).length) '0' ++ Nat.toDigits 16 n

/-- The id that the counter's value stands for; the counter is one of 64 bits. -/
def refId (n : Nat) : String := String.ofList ('q' :: '-' :: padHex (n % 2 ^ 64))

/-- `opaque` -/
def opaqueMessage (ref : Nat) : String := "query could not be executed (ref: " ++ refId ref ++ ")"

/-- What the caller of `run_sql_env` gets. -/
def Ending.result (timeoutSecs ref : Nat) : Ending β → Except String (List β)
  | .answer batches => .ok batches
  | .failed _ => .error (opaqueMessage ref)
  | .refused message => .error message
  | .oversized cap rows => .error
      ("result is larger than max_result_rows (" ++ toString cap ++ "): stopped after " ++
        toString rows ++ " rows. The server refuses rather than truncating, because " ++
        "a partial answer returned as a whole one is worse than an " ++
        "error. Narrow the time range or the projection, aggregate, or " ++
        "raise max_result_rows if this result is genuinely wanted.")
  | .timedOut => .error
      ("query timed out after " ++ toString timeoutSecs ++ "s (server-side cap, RR-2)")

/-- What a request ends with: turned away at its client's cap, an error from before the
statement is run, or the ending of its run. -/
inductive Reply (β : Type*) where
  | tooMany
  | notRun (message : String)
  | ran (ref : Nat) (ending : Ending β)

def Reply.isTooMany : Reply β → Bool
  | .tooMany => true
  | _ => false

end Requests

section Metrics

structure QueryMetrics where
  inFlight : UInt64
  queued : UInt64
  completed : UInt64
  timeouts : UInt64
  refused : UInt64
  resultRowsRefused : UInt64
  failed : UInt64

namespace QueryMetrics

def new : QueryMetrics := ⟨0, 0, 0, 0, 0, 0, 0⟩

def enterQueue (m : QueryMetrics) : QueryMetrics := { m with queued := m.queued + 1 }

def leaveQueue (m : QueryMetrics) : QueryMetrics := { m with queued := m.queued - 1 }

def enterFlight (m : QueryMetrics) : QueryMetrics := { m with inFlight := m.inFlight + 1 }

def leaveFlight (m : QueryMetrics) : QueryMetrics := { m with inFlight := m.inFlight - 1 }

def countOversized (m : QueryMetrics) : QueryMetrics :=
  { m with resultRowsRefused := m.resultRowsRefused + 1 }

def record (m : QueryMetrics) (outcome : QueryOutcome) : QueryMetrics :=
  let m := { m with completed := m.completed + 1 }
  match outcome with
  | .ok => m
  | .timeout => { m with timeouts := m.timeouts + 1 }
  | .refused => { m with refused := m.refused + 1 }
  | .failed => { m with failed := m.failed + 1 }

end QueryMetrics

end Metrics

section Machine

variable {β : Type*}

/-- How far a request has come. Behind `waiting` and up to `recorded` it holds a permit. -/
inductive Phase (β : Type*) where
  | arrived
  | waiting (ref : Nat)
  | admitted (ref : Nat)
  | registered (ref : Nat)
  | planned (ref : Nat)
  | executed (ref cap : Nat)
  | streaming (ref cap : Nat) (batches : List β) (rows : Nat) (rest : List (Except String β))
  | ended (ref : Nat) (ending : Ending β)
  | recorded (ref : Nat) (ending : Ending β)
  | returned (ref : Nat) (ending : Ending β)
  | turned (message : String)

namespace Phase

def isQueued : Phase β → Bool
  | .waiting _ => true
  | _ => false

def holdsPermit : Phase β → Bool
  | .arrived | .waiting _ | .returned .. | .turned _ => false
  | _ => true

/-- The work under the statement's deadline. -/
def underDeadline : Phase β → Option Nat
  | .registered ref | .planned ref | .executed ref _ | .streaming ref .. => some ref
  | _ => none

/-- Where a request waits for something, and can be dropped. -/
def canDrop : Phase β → Bool
  | .arrived | .waiting _ | .registered _ | .planned _ | .executed .. | .streaming .. => true
  | _ => false

/-- The size of the answer was the reason. -/
def endsOversized : Phase β → Bool
  | .ended _ ending => ending.isOversized
  | _ => false

end Phase

/-- The next stage of the work behind the permit; `cap` is what `max_result_rows` reads now. -/
def work (numRows : β → Nat) (cap : Nat) (r : Request β) : Phase β → Option (Phase β)
  | .admitted ref =>
      match r.register with
      | some _ => some (.ended ref (.failed "register"))
      | none => some (.registered ref)
  | .registered ref =>
      match r.plan with
      | .error _ => some (.ended ref (.failed "plan"))
      | .ok plan =>
          match ensureReadOnly plan with
          | .error message => some (.ended ref (.refused message))
          | .ok _ => some (.planned ref)
  | .planned ref =>
      match r.execute with
      | some _ => some (.ended ref (.failed "execute"))
      | none => some (.executed ref cap)
  | .executed ref cap =>
      match r.stream with
      | .error _ => some (.ended ref (.failed "execute"))
      | .ok items => some (.streaming ref cap [] 0 items)
  | .streaming ref _ batches _ [] => some (.ended ref (.answer batches))
  | .streaming ref _ _ _ (.error _ :: _) => some (.ended ref (.failed "collect"))
  | .streaming ref cap batches rows (.ok batch :: rest) =>
      if cap < rows + numRows batch then some (.ended ref (.oversized cap (rows + numRows batch)))
      else some (.streaming ref cap (batches ++ [batch]) (rows + numRows batch) rest)
  | _ => none

structure Query (β : Type*) where
  guard : ClientGuard
  request : Request β
  phase : Phase β

/-- A query that is over, as the observer is told of it. -/
structure Finished (β : Type*) where
  ref : Nat
  request : Request β
  ending : Ending β

structure State (β : Type*) where
  limiter : ClientLimiter
  permits : Nat
  metrics : QueryMetrics
  maxResultRows : Nat
  queryRef : Nat
  queries : AssocMap Nat (Query β)
  /-- The queries recorded so far, in order. -/
  finished : List (Finished β)
  /-- Every plan that was executed. -/
  ranPlans : List LogicalPlan
  /-- What the callers have got. -/
  delivered : List (Request β × Reply β)

namespace State

def put (s : State β) (q : Nat) (query : Query β) (p : Phase β) : State β :=
  { s with queries := s.queries.insert q { query with phase := p } }

def setMaxResultRows (s : State β) (rows : Nat) : State β :=
  if 0 < rows then { s with maxResultRows := rows } else s

/-- The guards of a phase are dropped: the place in the queue, or the permit. -/
def giveBack (s : State β) (p : Phase β) : State β :=
  if p.isQueued then { s with metrics := s.metrics.leaveQueue }
  else if p.holdsPermit then
    { s with permits := s.permits + 1, metrics := s.metrics.leaveFlight }
  else s

/-- The request is gone, and with it the slot of its client. -/
def drop (s : State β) (q : Nat) (query : Query β) : State β :=
  { s.giveBack query.phase with
    limiter := s.limiter.release query.guard
    queries := s.queries.erase q }

def leave (s : State β) (q : Nat) (query : Query β) (reply : Reply β) : State β :=
  { s.drop q query with delivered := s.delivered ++ [(query.request, reply)] }

end State

inductive Action (β : Type*) where
  | arrive (q : Nat) (r : Request β)
  | begin (q : Nat) (maxResultRows : Nat)
  | advance (q : Nat)
  | timeout (q : Nat)
  | cancel (q : Nat)

def Action.arrives : Action β → Bool
  | .arrive .. => true
  | _ => false

/-- The semaphore has at least one permit. -/
def start (cap maxConcurrent : Nat) : State β where
  limiter := .new cap
  permits := max 1 maxConcurrent
  metrics := .new
  maxResultRows := 1000000
  queryRef := 0
  queries := ∅
  finished := []
  ranPlans := []
  delivered := []

/-- `rate_limit_sql`, and the admission of `do_get_statement`. -/
def arrive (s : State β) (q : Nat) (r : Request β) : Option (State β) :=
  match s.queries.lookup q with
  | some _ => none
  | none =>
      match s.limiter.admit r.key with
      | (l, some guard) =>
          some (State.put { s with limiter := l } q ⟨guard, r, .arrived⟩ .arrived)
      | (l, none) => some { s with limiter := l, delivered := s.delivered ++ [(r, .tooMany)] }

/-- The tables of the statement are put together; then the configured row cap is applied and
the statement gets its id and queues. -/
def begin (s : State β) (q : Nat) (query : Query β) (rows : Nat) : Option (State β) :=
  match query.phase with
  | .arrived =>
      match query.request.assembly with
      | some message => some (s.put q query (.turned message))
      | none =>
          let s := s.setMaxResultRows rows
          some (State.put { s with
            queryRef := s.queryRef + 1
            metrics := s.metrics.enterQueue } q query (.waiting s.queryRef))
  | _ => none

/-- The plan is executed in the step that leaves `planned`. -/
def ranPlan (r : Request β) : Phase β → List LogicalPlan
  | .planned _ => r.plan.toOption.toList
  | _ => []

def advance (numRows : β → Nat) (s : State β) (q : Nat) (query : Query β) : Option (State β) :=
  match query.phase with
  | .waiting ref =>
      if s.permits = 0 then none
      else some (State.put { s with
        permits := s.permits - 1
        metrics := s.metrics.leaveQueue.enterFlight } q query (.admitted ref))
  | .ended ref ending =>
      some (State.put { s with
        metrics := s.metrics.record ending.outcome
        finished := s.finished ++ [⟨ref, query.request, ending⟩] } q query (.recorded ref ending))
  | .recorded ref ending =>
      some ((s.giveBack query.phase).put q query (.returned ref ending))
  | .returned ref ending => some (s.leave q query (.ran ref ending))
  | .turned message => some (s.leave q query (.notRun message))
  | p =>
      match work numRows s.maxResultRows query.request p with
      | none => none
      | some p' =>
          some (State.put { s with
            metrics := if p'.endsOversized then s.metrics.countOversized else s.metrics
            ranPlans := s.ranPlans ++ ranPlan query.request p } q query p')

/-- The deadline fires: the work is dropped and the query ends. -/
def timeout (s : State β) (q : Nat) (query : Query β) : Option (State β) :=
  match query.phase.underDeadline with
  | some ref => some (s.put q query (.ended ref .timedOut))
  | none => none

def cancel (s : State β) (q : Nat) (query : Query β) : Option (State β) :=
  if query.phase.canDrop then some (s.drop q query) else none

def step (numRows : β → Nat) (s : State β) : Action β → Option (State β)
  | .arrive q r => arrive s q r
  | .begin q rows => (s.queries.lookup q).bind fun query => begin s q query rows
  | .advance q => (s.queries.lookup q).bind fun query => advance numRows s q query
  | .timeout q => (s.queries.lookup q).bind fun query => timeout s q query
  | .cancel q => (s.queries.lookup q).bind fun query => cancel s q query

/-- What `max_result_rows` can have read: the default, and every positive value applied. -/
def caps : List (Action β) → List Nat
  | [] => [1000000]
  | .begin _ rows :: rest => if 0 < rows then rows :: caps rest else caps rest
  | _ :: rest => caps rest

end Machine

end TimeLake.Admission
