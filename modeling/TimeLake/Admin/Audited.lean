import TimeLake.Admin.Handlers
import TimeLake.Audit.Sink
import TimeLake.Library.Run
import Mathlib.Logic.Function.Basic

/-!
Requests on the admin listener, any number of them at once, over one audit log. What the
engine and the credentials answer is given with each step, so any engine will do, and
between two steps of a request anything may happen. The log is the one of `crates/audit`
and its append may fail anywhere; an append that the process does not survive ends a run.
-/

namespace TimeLake.Admin.Plane

open TimeLake.Auth (Role SessionInfo)
open TimeLake.Audit (NewRecord AuditRecord HashInput)
open TimeLake.Library

section Log

structure AuditLog where
  node : String
  failOpen : Bool
  healthy : Bool
  recordsTotal : Nat
  unrecordedTotal : Nat
  sink : Audit.State

/-- The clock and the disk during an append. -/
structure Append where
  ts : String
  now : Int
  stop : Audit.Stop
  unremovable : List String

variable (sha : HashInput → String) (len : AuditRecord → Nat)

namespace AuditLog

def gate (log : AuditLog) : Bool := log.healthy || log.failOpen

/-- `record`, and whether the record was appended. -/
def record (log : AuditLog) (nr : NewRecord) (e : Append) : Option (AuditLog × Bool) := do
  let sink ← Audit.append sha len log.sink ⟨log.node, e.ts, nr⟩ e.now e.stop e.unremovable
  if sink.sink.isNone then none
  else if log.sink.acked.length < sink.acked.length then
    some ({ log with sink := sink, healthy := true, recordsTotal := log.recordsTotal + 1 }, true)
  else some ({ log with sink := sink, healthy := false }, false)

def recordBestEffort (log : AuditLog) (nr : NewRecord) (e : Append) : Option (AuditLog × Bool) :=
  (log.record sha len nr e).map fun p =>
    if p.2 then p else ({ p.1 with unrecordedTotal := p.1.unrecordedTotal + 1 }, false)

end AuditLog

end Log

section Machine

/-- How far a request has come. -/
inductive Phase where
  | asked
  | admitted (session : SessionInfo)
  | looked (session : SessionInfo) (first : View)
  | planned (session : SessionInfo) (behind : Except Reply Mutation)
  | gated (session : SessionInfo) (m : Mutation)
  | ready (session : SessionInfo) (m : Mutation) (before : Option (Json Int))
  | called (session : SessionInfo) (m : Mutation) (before : Option (Json Int))
      (result : Except Failure m.call.Answer)
  | answered (reply : Reply)

/-- A call that was made, for whom, and what came of it. -/
structure Made where
  session : SessionInfo
  call : Call
  result : Except Failure call.Answer

/-- A record in the trail, or one that was lost, has with it the request it is of, if any. -/
structure State (ι : Type) where
  log : AuditLog
  phase : ι → Phase
  calls : List (ι × Made)
  trail : List (Option ι × NewRecord)
  lost : List (Option ι × NewRecord)

inductive Action (ι : Type) where
  | guard (i : ι) (sessions : String → Option SessionInfo)
  | look (i : ι) (view : View)
  | plan (i : ι) (view : View)
  | gate (i : ι)
  | before (i : ι) (view : View)
  | call (i : ι) (answer : (c : Call) → Except Failure c.Answer)
  | conclude (i : ι) (view : View) (e : Append)
  | bestEffort (event : Event) (e : Append)

variable {ι : Type} [DecidableEq ι] (sha : HashInput → String) (len : AuditRecord → Nat)

namespace State

def setPhase (s : State ι) (i : ι) (p : Phase) : State ι :=
  { s with phase := Function.update s.phase i p }

/-- With the log as a record left it, and whether that was appended. -/
def noted (s : State ι) (who : Option ι) (nr : NewRecord) (p : AuditLog × Bool) : State ι :=
  if p.2 then { s with log := p.1, trail := s.trail ++ [(who, nr)] }
  else { s with log := p.1, lost := s.lost ++ [(who, nr)] }

/-- What a handler does when its call has returned. -/
def conclude (s : State ι) (i : ι) (source : Option String) (session : SessionInfo) (m : Mutation)
    (before : Option (Json Int)) (result : Except Failure m.call.Answer) (view : View)
    (e : Append) : Option (State ι) :=
  match m.conclude result view with
  | .recorded target after status body =>
      let nr := auditEvent session source m.action target before after "ok"
      (s.log.record sha len nr e).map fun p =>
        (s.noted (some i) nr p).setPhase i (.answered
          (if p.2 || s.log.failOpen then .done status body else .refused .auditUnavailable))
  | .noted target after outcome refusal =>
      let nr := auditEvent session source m.action target before after outcome
      (s.log.record sha len nr e).map fun p =>
        (s.noted (some i) nr p).setPhase i (.answered (.refused refusal))
  | .unrecorded refusal => some (s.setPhase i (.answered (.refused refusal)))

end State

variable (bodies : Bodies) (reqs : ι → Request)

def step (s : State ι) : Action ι → Option (State ι)
  | .guard i sessions =>
      match s.phase i with
      | .asked =>
          match adminGuard sessions (reqs i) with
          | .error e => some (s.setPhase i (.answered (.refused e)))
          | .ok session => some (s.setPhase i (.admitted session))
      | _ => none
  | .look i view =>
      match s.phase i with
      | .admitted session => some (s.setPhase i (.looked session view))
      | _ => none
  | .plan i view =>
      match s.phase i with
      | .looked session first =>
          match adminApp bodies session (reqs i) first view with
          | none => none
          | some (.error reply) => some (s.setPhase i (.answered reply))
          | some (.ok behind) => some (s.setPhase i (.planned session behind))
      | _ => none
  | .gate i =>
      match s.phase i with
      | .planned session behind =>
          if s.log.gate then
            match behind with
            | .error reply => some (s.setPhase i (.answered reply))
            | .ok m => some (s.setPhase i (.gated session m))
          else some (s.setPhase i (.answered (.refused .auditUnavailable)))
      | _ => none
  | .before i view =>
      match s.phase i with
      | .gated session m => some (s.setPhase i (.ready session m (m.before view)))
      | _ => none
  | .call i answer =>
      match s.phase i with
      | .ready session m before =>
          some { s.setPhase i (.called session m before (answer m.call)) with
            calls := s.calls ++ [(i, ⟨session, m.call, answer m.call⟩)] }
      | _ => none
  | .conclude i view e =>
      match s.phase i with
      | .called session m before result =>
          s.conclude sha len i (reqs i).source session m before result view e
      | _ => none
  | .bestEffort event e =>
      (s.log.recordBestEffort sha len event.record e).map (s.noted none event.record)

def start (log : AuditLog) : State ι := ⟨log, fun _ => .asked, [], [], []⟩

end Machine

end TimeLake.Admin.Plane
