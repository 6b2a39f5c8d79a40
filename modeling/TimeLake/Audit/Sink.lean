import TimeLake.Audit.Chain
import TimeLake.Library.Decimal
import TimeLake.Library.Pairs

/-!
`AuditSink` and its directory. A file is what was written to it: for each write
the record and how many bytes of its line arrived. A line is the JSON of one
record and a line feed; the beginning of a JSON object is not JSON, and neither
is an object followed by more text, so a line reads as a record only if it is one
write that lacks the line feed at most, at the end of the file. How long the JSON
of a record is, is a parameter.

`append` may stop anywhere: with an error, after which the sink goes on, or by a
crash, after which only the directory is left. Instants and modification times
are in nanoseconds.
-/

namespace TimeLake.Audit

open TimeLake.Library

structure Policy where
  rotateBytes : Option Nat
  rotateAfter : Option Nat
  retainDays : Option Nat
  deriving DecidableEq, Repr

def defaultRotateBytes : Nat := 64 * 1024 * 1024

def minRetentionDays : Nat := 90

def Policy.default : Policy := ⟨some defaultRotateBytes, none, none⟩

def Policy.effectiveRetainDays (p : Policy) : Option Nat :=
  p.retainDays.map fun d => max d minRetentionDays

/-- The first bytes of the line of a record. -/
structure Fragment where
  record : AuditRecord
  bytes : Nat
  deriving DecidableEq, Repr

structure Segment where
  content : List Fragment
  modified : Int
  deriving DecidableEq, Repr

def Segment.size (seg : Segment) : Nat := (seg.content.map Fragment.bytes).sum

/-- The rotated segments by their names, and `audit.jsonl`. -/
structure Disk where
  rotated : List (String × Segment)
  live : Option Segment
  deriving DecidableEq, Repr

/-- The file a writer has open. -/
inductive Target where
  | live
  | rotated (name : String)
  deriving DecidableEq, Repr

structure Sink where
  policy : Policy
  target : Target
  nextSeq : Nat
  head : String
  written : Nat
  opened : Int
  deriving DecidableEq, Repr

def segmentName (last : Nat) : String :=
  "audit." ++ String.ofList (padNat 12 last) ++ ".jsonl"

namespace Disk

def segments (d : Disk) : List Segment := d.rotated.map Prod.snd ++ d.live.toList

/-- Bytes arrive at the end of a file. -/
def extend (d : Disk) (f : Fragment) (now : Int) : Target → Disk
  | .live => { d with live := d.live.map fun seg => ⟨seg.content ++ [f], now⟩ }
  | .rotated name => { d with
      rotated := d.rotated.map fun p =>
        (p.1, if p.1 = name then ⟨p.2.content ++ [f], now⟩ else p.2) }

/-- What was last written to a file. -/
def lastOf (d : Disk) : Target → Option Fragment
  | .live => d.live.bind fun seg => seg.content.getLast?
  | .rotated name => (d.rotated.lookup name).bind fun seg => seg.content.getLast?

end Disk

section Reading

variable (len : AuditRecord → Nat)

def Fragment.whole (f : Fragment) : Bool := f.bytes = len f.record + 1

def readSegment : List Fragment → Option (List AuditRecord)
  | [] => some []
  | f :: rest =>
      if f.whole len || (rest.isEmpty && f.bytes = len f.record) then
        (readSegment rest).map (f.record :: ·)
      else none

def readSegments : List Segment → Option (List AuditRecord)
  | [] => some []
  | seg :: rest =>
      (readSegment len seg.content).bind fun records =>
        (readSegments rest).map (records ++ ·)

def readAll (d : Disk) : Option (List AuditRecord) := readSegments len d.segments

/-- `open_with`: nothing where a segment does not read. -/
def openWith (d : Disk) (policy : Policy) (now : Int) : Option (Sink × Disk) :=
  (readAll len d).map fun records =>
    let live := d.live.getD ⟨[], now⟩
    (⟨policy, .live, (recover records).1, (recover records).2, live.size, now⟩,
      { d with live := some live })

end Reading

section Append

/-- Where an `append` stops. A stop in a part that is not reached has no effect. -/
inductive Stop where
  | never
  | rename
  | create
  | prune (removed : Nat)
  | write (bytes : Nat)
  deriving DecidableEq, Repr

def shouldRotate (sink : Sink) (next : Nat) (now : Int) : Bool :=
  if sink.written = 0 then false
  else sink.policy.rotateBytes.any (fun limit => limit < sink.written + next) ||
    sink.policy.rotateAfter.any (fun after => after ≤ (now - sink.opened).toNat)

/-- The instant before which `prune` deletes. The product of two `u64` wraps, and
an instant that no `SystemTime` can express deletes nothing. -/
def cutoff (policy : Policy) (now : Int) : Option Int :=
  policy.effectiveRetainDays.bind fun days =>
    let secs : Nat := days * 86400 % 2 ^ 64
    if (-2 ^ 63 : Int) * 10 ^ 9 ≤ now - secs * 10 ^ 9 then some (now - secs * 10 ^ 9) else none

def expired (policy : Policy) (now : Int) (d : Disk) : List String :=
  match cutoff policy now with
  | some t => (d.rotated.filter fun p => p.2.modified < t).map Prod.fst
  | none => []

/-- The expired segments are removed, in their order and but for those that
cannot be. -/
def prune (policy : Policy) (now : Int) (limit : Option Nat) (unremovable : List String)
    (d : Disk) : Disk :=
  let names := (expired policy now d).filter fun name => !unremovable.contains name
  let removed := limit.elim names names.take
  { d with rotated := d.rotated.filter fun p => !removed.contains p.1 }

inductive Rotation where
  | done (sink : Sink) (disk : Disk)
  | failed (sink : Sink) (disk : Disk)
  | crashed (disk : Disk)
  deriving DecidableEq

/-- `rotate`. After the rename the writer has the renamed file open until the
new one is. -/
def rotate (sink : Sink) (d : Disk) (now : Int) (stop : Stop) (unremovable : List String) :
    Rotation :=
  let name := segmentName (sink.nextSeq - 1)
  if (d.rotated.lookup name).isSome then .done sink d
  else match d.live with
    | none => .failed sink d
    | some seg =>
        let renamed : Disk := ⟨insertPair name seg d.rotated, none⟩
        let created : Disk := { renamed with live := some ⟨[], now⟩ }
        match stop with
        | .rename => .failed sink d
        | .create => .failed { sink with target := .rotated name } renamed
        | .prune n => .crashed (prune sink.policy now (some n) unremovable created)
        | _ => .done { sink with target := .live, written := 0, opened := now }
            (prune sink.policy now none unremovable created)

structure State where
  disk : Disk
  sink : Option Sink
  acked : List AuditRecord
  deriving DecidableEq

structure Request where
  node : String
  ts : String
  record : NewRecord
  deriving DecidableEq, Repr

inductive Action where
  | open (policy : Policy) (now : Int)
  | append (req : Request) (now : Int) (stop : Stop) (unremovable : List String)
  | crash

def initial : State := ⟨⟨[], none⟩, none, []⟩

variable (sha : HashInput → String) (len : AuditRecord → Nat)

def Request.recordFor (req : Request) (sink : Sink) : AuditRecord :=
  newRecord sha (sink.nextSeq, sink.head) req.node req.ts req.record

/-- The rotation an `append` begins with, if any. -/
def prepare (sink : Sink) (d : Disk) (req : Request) (now : Int) (stop : Stop)
    (unremovable : List String) : Rotation :=
  if shouldRotate sink (len (req.recordFor sha sink) + 1) now then
    rotate sink d now stop unremovable
  else .done sink d

/-- How much of the line arrives. -/
def arriving (stop : Stop) (rec : AuditRecord) : Nat :=
  match stop with
  | .write n => min n (len rec + 1)
  | _ => len rec + 1

/-- The write of an `append`, which is acknowledged unless it stops. -/
def writeLine (s : State) (sink : Sink) (d : Disk) (rec : AuditRecord) (now : Int) (stop : Stop) :
    State :=
  let bytes := arriving len stop rec
  let d := if bytes = 0 then d else d.extend ⟨rec, bytes⟩ now sink.target
  match stop with
  | .write _ => { s with disk := d, sink := some sink }
  | _ => ⟨d, some { sink with
      written := sink.written + bytes
      nextSeq := rec.seq + 1
      head := rec.hash }, s.acked ++ [rec]⟩

def append (s : State) (req : Request) (now : Int) (stop : Stop) (unremovable : List String) :
    Option State :=
  s.sink.map fun sink =>
    match prepare sha len sink s.disk req now stop unremovable with
    | .done sink' d => writeLine len s sink' d (req.recordFor sha sink) now stop
    | .failed sink' d => { s with disk := d, sink := some sink' }
    | .crashed d => { s with disk := d, sink := none }

def step (s : State) : Action → Option State
  | .open policy now =>
      match s.sink with
      | none =>
        (openWith len s.disk policy now).map fun r => { s with sink := some r.1, disk := r.2 }
      | some _ => none
  | .append req now stop unremovable => append sha len s req now stop unremovable
  | .crash => some { s with sink := none }

end Append

end TimeLake.Audit
