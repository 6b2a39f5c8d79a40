import TimeLake.Ingest.Replay
import TimeLake.LastCache.Batch

/-!
The calls of one node that the last-value cache sees, one after another: opting
in, opting out and acknowledged writes. The rows of a write are in the buffers
when its lines reach the cache, one `observe` after the other, and
`write_observed` says that this is what `Node.write` does.

Two things are not data of the program: the row that a line still to be
observed has become, and the rows of opted-in tables that were observed since
their table opted in.
-/

namespace TimeLake.LastCache

open TimeLake.Library TimeLake.Rows TimeLake.Ingest
open TimeLake.Catalog (TableKey)

structure State where
  node : Node
  pending : List ((TableKey × Row) × ParsedLine)
  seen : List (TableKey × Row)

inductive Action where
  | enable (key : TableKey)
  | disable (key : TableKey)
  | write (c : Call) (w : Weather)
  | observe

/-- A node with nothing opted in. -/
def start (node : Node) (cap : Nat) : State := ⟨{ node with lastValue := .new cap }, [], []⟩

/-- `is_enabled`. -/
def isEnabled (c : LastValueCache) (key : TableKey) : Bool := c.enabled.contains (tt key.1 key.2)

def forget (key : TableKey) (seen : List (TableKey × Row)) : List (TableKey × Row) :=
  seen.filter fun p => tt p.1.1 p.1.2 ≠ tt key.1 key.2

def observeLine (c : LastValueCache) (p : (TableKey × Row) × ParsedLine) : LastValueCache :=
  c.observe p.1.1.1 p.2.table p.2.tags p.2.timestampNs p.2.fields

namespace State

def setCache (s : State) (c : LastValueCache) : State :=
  { s with node := { s.node with lastValue := c } }

/-- `last_cache('table')`. -/
def lastCache (s : State) (key : TableKey) : Batch :=
  buildBatch (s.node.lastValue.snapshot key.1 key.2)

/-- The rows of a table, oldest first. -/
def scan (s : State) (key : TableKey) : List Row := (s.node.buffer key).1.rows

end State

def enable (s : State) (key : TableKey) : Option State :=
  match s.pending with
  | [] =>
      some { s.setCache (s.node.lastValue.enable key.1 key.2) with
        seen := if isEnabled s.node.lastValue key then s.seen else forget key s.seen }
  | _ :: _ => none

def disable (s : State) (key : TableKey) : Option State :=
  match s.pending with
  | [] =>
      some { s.setCache (s.node.lastValue.disable key.1 key.2) with seen := forget key s.seen }
  | _ :: _ => none

/-- A write that will be acknowledged, up to the loop over its lines that shows
them to the cache. -/
def write (fl : FloatOps) (s : State) (c : Call) (w : Weather) : Option State :=
  match s.pending, s.node.write fl c w with
  | [], (node, .ok _) =>
      some { s with
        node := { node with lastValue := s.node.lastValue }
        pending := (s.node.tables.addedBy fl (bodyOf fl (c, w)) w.nowNs).zip
          ((c.lines fl).map (Line.stamp w.nowNs)) }
  | _, _ => none

def observe (s : State) : Option State :=
  match s.pending with
  | [] => none
  | p :: rest =>
      some { s.setCache (observeLine s.node.lastValue p) with
        pending := rest
        seen := if isEnabled s.node.lastValue p.1.1 then s.seen ++ [p.1] else s.seen }

def step (fl : FloatOps) (s : State) : Action → Option State
  | .enable key => enable s key
  | .disable key => disable s key
  | .write c w => write fl s c w
  | .observe => observe s

section Write

variable {fl : FloatOps}

theorem appendLines_lastValue (fl : FloatOps) (db : String) (est : String → Established)
    (lines : List ParsedLine) (s : Node) :
    (s.appendLines fl db est lines).1.lastValue = s.lastValue := by
  induction lines generalizing s with
  | nil => rfl
  | cons line rest ih =>
      simp only [Node.appendLines]
      split
      · rfl
      · exact ih _

theorem noteAll_lastValue (keys : List TableKey) (s : Node) :
    (s.noteAll keys).1.lastValue = s.lastValue := by
  induction keys generalizing s with
  | nil => rfl
  | cons key rest ih =>
      have hnote : (s.noteColumns key).1.lastValue = s.lastValue := by
        unfold Node.noteColumns
        dsimp only
        split
        · split <;> rfl
        · rfl
      simp only [Node.noteAll]
      split
      · next s' e heq =>
          rw [heq] at hnote
          exact hnote
      · next s' heq =>
          rw [heq] at hnote
          exact (ih s').trans hnote

theorem observe_inactive {c : LastValueCache} (h : c.isActive = false) (db table : String)
    (tags : List (String × String)) (timestampNs : Int) (fields : List (String × FieldValue)) :
    c.observe db table tags timestampNs fields = c := by
  have hnone : c.enabled = [] := by simpa [LastValueCache.isActive] using h
  simp [LastValueCache.observe, hnone]

theorem observeAll_lastValue (s : Node) (db : String) (lines : List ParsedLine) :
    (s.observeAll db lines).lastValue = lines.foldl (fun cache line =>
      cache.observe db line.table line.tags line.timestampNs line.fields) s.lastValue := by
  unfold Node.observeAll
  split
  · rfl
  · next hactive =>
      rw [Bool.not_eq_true] at hactive
      induction lines with
      | nil => rfl
      | cons line rest ih => rwa [List.foldl_cons, observe_inactive hactive]

theorem applyLines_lastValue {s s' : Node} {db : String} {lines : List ParsedLine} {n : Nat}
    (h : s.applyLines fl db lines = (s', .ok n)) :
    s'.lastValue = lines.foldl (fun cache line =>
      cache.observe db line.table line.tags line.timestampNs line.fields) s.lastValue := by
  unfold Node.applyLines at h
  have happend := appendLines_lastValue fl db (fun table => s.established (db, table)) lines s
  split at h
  · cases h
  · next s₁ heq =>
      rw [heq] at happend
      have hnote := noteAll_lastValue (Node.touched db lines) (s₁.observeAll db lines)
      split at h
      · cases h
      · next s₂ hall =>
          rw [hall] at hnote
          rw [← (Prod.mk.inj h).1, hnote, observeAll_lastValue, happend]

/-- The lines of an acknowledged write reach the cache in their order. -/
theorem write_lastValue {s s' : Node} {c : Call} {w : Weather} {n : Nat}
    (h : s.write fl c w = (s', .ok n)) :
    s'.lastValue = ((c.lines fl).map (Line.stamp w.nowNs)).foldl (fun cache line =>
      cache.observe c.db line.table line.tags line.timestampNs line.fields) s.lastValue := by
  unfold Node.write at h
  cases hcheck : s.check fl c with
  | error e =>
      rw [hcheck] at h
      cases h
  | ok r =>
      obtain ⟨mult, text, lines⟩ := r
      obtain ⟨htext, hread⟩ := check_readLines hcheck
      have hlines : c.lines fl = lines := by
        simp [Call.lines, check_mult hcheck, htext, hread, Except.toOption]
      simp only [hcheck] at h
      split at h
      · cases h
      · split at h
        · cases h
        · simp only [apply_of_readLines hread] at h
          split at h
          · cases h
          · next s₁ n₁ happly =>
              rw [← (Prod.mk.inj h).1, applyLines_lastValue happly, hlines]

/-- A line still to be observed and the row it has become. -/
def Became (db : String) (p : (TableKey × Row) × ParsedLine) : Prop :=
  p.1.1 = (db, p.2.table) ∧ p.1.2.time = p.2.timestampNs ∧ p.1.2.tags = tagSet p.2.tags

theorem became_appended {db : String} {est : String → Established} {types : String → Types}
    {lines : List ParsedLine} :
    ∀ p ∈ (Tables.appended fl db est types lines).zip lines, Became db p := by
  induction lines generalizing types with
  | nil => simp [Tables.appended]
  | cons line rest ih =>
      unfold Tables.appended
      split
      · simp
      · intro p hp
        rcases List.mem_cons.mp hp with rfl | hrest
        · exact ⟨rfl, rfl, rfl⟩
        · exact ih p hrest

theorem foldl_observeLine {db : String} {added : List (TableKey × Row)} {lines : List ParsedLine}
    (hlength : added.length = lines.length) (hbecame : ∀ p ∈ added.zip lines, Became db p)
    (c : LastValueCache) :
    (added.zip lines).foldl observeLine c = lines.foldl (fun cache line =>
      cache.observe db line.table line.tags line.timestampNs line.fields) c := by
  induction lines generalizing added c with
  | nil => simp
  | cons line rest ih =>
      obtain _ | ⟨row, added⟩ := added
      · cases hlength
      · obtain ⟨hkey, _⟩ := hbecame (row, line) List.mem_cons_self
        rw [List.zip_cons_cons, List.foldl_cons, List.foldl_cons, ih (Nat.succ.inj hlength)
          fun p hp => hbecame p (List.mem_cons_of_mem _ hp), observeLine, hkey]

/-- What the write step leaves, before any of its lines is observed. -/
theorem write_cases {s t : State} {c : Call} {w : Weather} (h : write fl s c w = some t) :
    ∃ node n, s.pending = [] ∧ s.node.write fl c w = (node, .ok n) ∧
      t = { s with
        node := { node with lastValue := s.node.lastValue }
        pending := (s.node.tables.addedBy fl (bodyOf fl (c, w)) w.nowNs).zip
          ((c.lines fl).map (Line.stamp w.nowNs)) } := by
  unfold write at h
  split at h
  · next node n hpending hwrite => exact ⟨node, n, hpending, hwrite, (Option.some.inj h).symm⟩
  · cases h

theorem length_pending {s node : Node} {c : Call} {w : Weather} {n : Nat}
    (h : s.write fl c w = (node, .ok n)) :
    (s.tables.addedBy fl (bodyOf fl (c, w)) w.nowNs).length =
      ((c.lines fl).map (Line.stamp w.nowNs)).length := by
  rw [List.length_map]
  exact Tables.length_addedBy fl (write_ok_spec h).2.2.1 w.nowNs

/-- With all its lines observed a write is `Node.write`. -/
theorem write_observed {s t : State} {c : Call} {w : Weather} (h : write fl s c w = some t) :
    (t.setCache (t.pending.foldl observeLine t.node.lastValue)).node = (s.node.write fl c w).1 := by
  obtain ⟨node, n, _, hwrite, rfl⟩ := write_cases h
  have hcache := write_lastValue hwrite
  rw [hwrite, State.setCache]
  dsimp only
  rw [foldl_observeLine (length_pending hwrite) became_appended]
  change ({ node with lastValue := _ } : Node) = node
  rw [show (bodyOf fl (c, w)).db = c.db from rfl, ← hcache]

end Write

end TimeLake.LastCache
