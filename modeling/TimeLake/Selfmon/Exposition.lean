import TimeLake.Ingest.RoundTrip
import TimeLake.Library.Groups
import TimeLake.Library.Split
import Mathlib.Data.Prod.Lex

/-!
Self-monitoring, `crates/server/src/selfmon.rs`: a finished query becomes a line of
the table `queries`, and the exposition of the server's own metrics a line of the table
`metrics` for each label set. The lines wait in a bounded queue; the queue is drained,
joined by line ends and written as any other body is.

The scanner of label values indexes bytes. It takes the byte behind a backslash for a
character, and where that is the first byte of a longer character the next index falls
inside it: the slice panics, here `none`. How a duration is printed in milliseconds is a
parameter, as reading a float is.
-/

namespace TimeLake.Selfmon

open TimeLake.Library TimeLake.Ingest

section Escaping

/-- `escape_tag`: the separators and the backslash with a backslash in front, and a line
end as the letter n behind one. -/
def escapeTag (value : List Char) : List Char :=
  value.flatMap fun c =>
    if escapable c then ['\\', c] else if c = '\n' then ['\\', 'n'] else [c]

/-- `escape_field_string`, and `escape_label` of the exposition. -/
def escapeQuoted (value : List Char) : List Char :=
  value.flatMap fun c =>
    if c = '"' || c = '\\' then ['\\', c] else if c = '\n' then ['\\', 'n'] else [c]

def escapeFieldString (value : String) : List Char := escapeQuoted value.toList

def escapeLabel (value : String) : List Char := escapeQuoted value.toList

end Escaping

section Queries

inductive QueryOutcome where
  | ok | timeout | refused | failed
  deriving DecidableEq, Repr

def QueryOutcome.asStr : QueryOutcome → String
  | .ok => "ok"
  | .timeout => "timeout"
  | .refused => "refused"
  | .failed => "failed"

/-- A finished query; its times in nanoseconds. The rows are counted one by one as they
are delivered. -/
structure QueryStats where
  refId : String
  db : String
  identity : Option String
  admissionWait : Nat
  duration : Nat
  rows : Nat
  outcome : QueryOutcome
  counted : rows < 2 ^ 63

/-- The line `on_query` builds; `millis` prints a duration as `{:.3}` prints its
milliseconds. -/
def queryLine (millis : Nat → List Char) (node : String) (stats : QueryStats) (nowNs : Int64) :
    List Char :=
  "queries,node=".toList ++ escapeTag node.toList ++
    ",db=".toList ++ escapeTag stats.db.toList ++
    ",outcome=".toList ++ stats.outcome.asStr.toList ++
    (match stats.identity with
      | some identity => ",identity=".toList ++ escapeTag identity.toList
      | none => []) ++
    " duration_ms=".toList ++ millis stats.duration ++
    ",wait_ms=".toList ++ millis stats.admissionWait ++
    ",rows=".toList ++ padNat 0 stats.rows ++
    "i,ref=\"".toList ++ escapeFieldString stats.refId ++
    "\" ".toList ++ padInt 0 nowNs.toInt

end Queries

section Exposition

/-- The labels of a series, by increasing key; label sets compare as maps do. -/
abbrev Labels := List (String ×ₗ String)

/-- The value from behind its opening quote, and what is behind the closing one. -/
def scanValue : List Char → Option (List Char × List Char)
  | [] => some ([], [])
  | [c] => some (if c = '"' then [] else [c], [])
  | c :: n :: rest =>
      if c = '\\' then
        if n.toNat < 128 then
          (scanValue rest).map fun p => ((if n = 'n' then '\n' else n) :: p.1, p.2)
        else none
      else if c = '"' then some ([], n :: rest)
      else (scanValue (n :: rest)).map fun p => (c :: p.1, p.2)

theorem length_scanValue {text value left : List Char} (h : scanValue text = some (value, left)) :
    left.length ≤ text.length := by
  induction text using scanValue.induct generalizing value with
  | case1 =>
      cases h
      exact Nat.le_refl _
  | case2 c =>
      cases h
      exact Nat.zero_le _
  | case3 n rest hn ih =>
      rw [scanValue, if_pos rfl, if_pos hn, Option.map_eq_some_iff] at h
      obtain ⟨⟨v, l⟩, hrest, hpair⟩ := h
      cases hpair
      have hle : l.length ≤ rest.length := ih hrest
      simp only [List.length_cons]
      omega
  | case4 n rest hn =>
      rw [scanValue, if_pos rfl, if_neg hn] at h
      cases h
  | case5 n rest hc =>
      rw [scanValue, if_neg hc, if_pos rfl] at h
      cases h
      simp
  | case6 c n rest hc hquote ih =>
      rw [scanValue, if_neg hc, if_neg hquote, Option.map_eq_some_iff] at h
      obtain ⟨⟨v, l⟩, hrest, hpair⟩ := h
      cases hpair
      exact (ih hrest).trans (by simp)

def isSeparator (c : Char) : Bool := c = ',' || c = ' '

/-- The loop of `parse_labels`. -/
def parseLabelsInto (out : List (String × String)) (input : List Char) :
    Option (List (String × String)) :=
  match _h : cutAt '=' input with
  | some (before, '"' :: rest) =>
      match _hv : scanValue rest with
      | some (value, left) =>
          let key := (before.dropWhile isSeparator).rdropWhile isSeparator
          parseLabelsInto
            (if key = [] then out
              else insertPair (String.ofList key) (String.ofList value) out) left
      | none => none
  | _ => some out
termination_by input.length
decreasing_by
  obtain ⟨rfl, _⟩ := cutAt_eq_some.mp _h
  have hleft := length_scanValue _hv
  simp only [List.length_append, List.length_cons]
  omega

/-- `parse_labels`. -/
def parseLabels (input : List Char) : Option Labels :=
  (parseLabelsInto [] input).map fun m => m.map toLex

def isFiniteText (fl : FloatOps) (value : List Char) : Bool :=
  match fl.parse value with
  | some bits => isFinite bits
  | none => false

/-- One line of the exposition: nothing, or a sample with its labels. -/
def readSample (fl : FloatOps) (raw : List Char) : Option (Option (Labels × String × List Char)) :=
  let line := trim raw
  if line = [] || line.head? = some '#' then some none
  else match rcutAt ' ' line with
    | none => some none
    | some (series, value) =>
        if isFiniteText fl value then
          match cutAt '{' series with
          | some (name, rest) =>
              (parseLabels (rest.rdropWhile (· = '}'))).map fun labels =>
                if name = [] then none else some (labels, String.ofList name, value)
          | none => some (if series = [] then none else some ([], String.ofList series, value))
        else some none

abbrev Grouped := List (Labels × List (String × List Char))

/-- `grouped.entry(labels).or_default().insert(name, value)`. -/
def addSample (grouped : Grouped) (s : Labels × String × List Char) : Grouped :=
  insertInto grouped s.1 s.2.1 s.2.2

def groupSamples (fl : FloatOps) : Grouped → List (List Char) → Option Grouped
  | grouped, [] => some grouped
  | grouped, line :: rest =>
      match readSample fl line with
      | none => none
      | some none => groupSamples fl grouped rest
      | some (some s) => groupSamples fl (addSample grouped s) rest

def pairsText (fields : List (String × List Char)) : List Char :=
  match fields with
  | [] => []
  | [p] => escapeTag p.1.toList ++ '=' :: p.2
  | p :: q :: rest => escapeTag p.1.toList ++ '=' :: (p.2 ++ ',' :: pairsText (q :: rest))

def metricsLine (node : String) (nowNs : Int64) (group : Labels × List (String × List Char)) :
    List Char :=
  "metrics,node=".toList ++ escapeTag node.toList ++
    (group.1.flatMap fun p =>
      ',' :: (escapeTag (ofLex p).1.toList ++ '=' :: escapeTag (ofLex p).2.toList)) ++
    ' ' :: pairsText group.2 ++ ' ' :: padInt 0 nowNs.toInt

def expositionToLineProtocol (fl : FloatOps) (exposition : List Char) (node : String)
    (nowNs : Int64) : Option (List (List Char)) :=
  (groupSamples fl [] (splitLines exposition)).map fun grouped =>
    grouped.map (metricsLine node nowNs)

end Exposition

section Queue

/-- The lines that wait for the next tick. -/
structure SelfMonitor where
  pending : List (List Char)
  capacity : Nat
  dropped : Nat
  node : String

def defaultQueue : Nat := 4096

/-- The capacity is read from the environment. -/
def SelfMonitor.new (node : String) (queue : Option Nat) : SelfMonitor :=
  ⟨[], queue.getD defaultQueue, 0, node⟩

def SelfMonitor.enqueue (m : SelfMonitor) (line : List Char) : SelfMonitor :=
  if m.capacity ≤ m.pending.length then { m with dropped := m.dropped + 1 }
  else { m with pending := m.pending ++ [line] }

def SelfMonitor.drain (m : SelfMonitor) : List (List Char) × SelfMonitor :=
  (m.pending, { m with pending := [] })

def SelfMonitor.onQuery (millis : Nat → List Char) (m : SelfMonitor) (stats : QueryStats)
    (nowNs : Int64) : SelfMonitor := m.enqueue (queryLine millis m.node stats nowNs)

def SelfMonitor.sampleExposition (fl : FloatOps) (m : SelfMonitor) (exposition : List Char)
    (nowNs : Int64) : Option SelfMonitor :=
  (expositionToLineProtocol fl exposition m.node nowNs).map fun lines =>
    lines.foldl SelfMonitor.enqueue m

/-- The body the drained lines are written as. -/
def body (lines : List (List Char)) : String := String.ofList (['\n'].intercalate lines)

end Queue

end TimeLake.Selfmon
