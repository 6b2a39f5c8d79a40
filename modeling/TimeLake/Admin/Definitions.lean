import TimeLake.Cluster.Machine
import TimeLake.Ingest.LineProtocol
import TimeLake.Library.Pairs
import TimeLake.Library.Fallible
import Mathlib.Data.List.Find

/-!
Retention policies and rollup definitions as the admin surface edits them:
`RollupDef::validate` of `crates/api`, and what `set_retention`,
`remove_retention`, `set_rollup` and `remove_rollup` of `crates/server` do to
the lists the engine keeps. A rejected request is an error that says which
check refused it; an `f64` quantile is its bits.
-/

namespace TimeLake.Admin

open TimeLake.Cluster
open TimeLake.Ingest
open TimeLake.Library

inductive RollupFn where
  | avg | min | max | sum | count | first | last | countDistinct | percentile
  deriving DecidableEq, Repr

def RollupFn.takesQuantile : RollupFn → Bool
  | .percentile => true
  | _ => false

structure RollupAgg where
  function : RollupFn
  sourceColumn : String
  targetColumn : String
  quantile : Option UInt64
  deriving DecidableEq, Repr

structure RollupDef where
  db : String
  name : String
  source : String
  target : String
  intervalSecs : Nat
  lookbackSecs : Nat
  groupBy : List String
  aggregations : List RollupAgg
  filter : Option String
  deriving DecidableEq, Repr

inductive RollupError where
  | dbEmpty
  | nameEmpty
  | sourceEmpty
  | targetEmpty
  | feedsItself
  | intervalZero
  | lookbackShort
  | noAggregation
  | columnEmpty
  | columnTime
  | columnTwice (column : String)
  | quantileMissing (column : String)
  | quantileRange (column : String) (quantile : UInt64)
  | quantileUnexpected (column : String)
  | filterBlank
  | groupCollides (tag : String)
  | retentionShort (db source : String) (seconds lookbackSecs : Nat)
  deriving DecidableEq, Repr

def isBlank (s : String) : Bool := (trim s.toList).isEmpty

/-- `(0.0..=1.0).contains(&q)`: the bits from `0.0` to `1.0`, or `-0.0`. -/
def isQuantile (bits : UInt64) : Bool := bits ≤ 0x3FF0000000000000 || bits = 0x8000000000000000

/-- One aggregation against the target columns seen before it. -/
def RollupAgg.validate (seen : List String) (a : RollupAgg) : Except RollupError (List String) :=
  if isBlank a.sourceColumn || isBlank a.targetColumn then .error .columnEmpty
  else if a.targetColumn = reservedKey then .error .columnTime
  else if seen.contains a.targetColumn then .error (.columnTwice a.targetColumn)
  else
    match a.function.takesQuantile, a.quantile with
    | true, none => .error (.quantileMissing a.targetColumn)
    | true, some q =>
        if isQuantile q then .ok (a.targetColumn :: seen)
        else .error (.quantileRange a.targetColumn q)
    | false, some _ => .error (.quantileUnexpected a.targetColumn)
    | false, none => .ok (a.targetColumn :: seen)

/-- The part of `validate` that reads the columns. -/
def RollupDef.validateColumns (d : RollupDef) : Except RollupError Unit := do
  if d.aggregations.isEmpty then throw .noAggregation
  let seen ← d.aggregations.foldlM RollupAgg.validate []
  if d.filter.any isBlank then throw .filterBlank
  match d.groupBy.find? seen.contains with
  | some tag => throw (.groupCollides tag)
  | none => pure ()

def RollupDef.validate (d : RollupDef) : Except RollupError Unit :=
  if isBlank d.db then .error .dbEmpty
  else if isBlank d.name then .error .nameEmpty
  else if isBlank d.source then .error .sourceEmpty
  else if isBlank d.target then .error .targetEmpty
  else if d.source = d.target then .error .feedsItself
  else if d.intervalSecs = 0 then .error .intervalZero
  else if d.lookbackSecs < d.intervalSecs then .error .lookbackShort
  else d.validateColumns

/-- What an accepted definition satisfies of the times and tables it names. -/
theorem RollupDef.validate_ok {d : RollupDef} (h : d.validate = .ok ()) :
    d.source ≠ d.target ∧ 0 < d.intervalSecs ∧ d.intervalSecs ≤ d.lookbackSecs := by
  unfold RollupDef.validate at h
  split at h
  · cases h
  split at h
  · cases h
  split at h
  · cases h
  split at h
  · cases h
  split at h
  · cases h
  split at h
  · cases h
  split at h
  · cases h
  exact ⟨‹_›, by omega, by omega⟩

section Retention

/-- The policy in force for a table: the exact database before a wildcard, as
`enforce_retention` picks it for a file. -/
def policyOf (policies : List RetentionPolicy) (db table : String) : Option RetentionPolicy :=
  (policies.find? fun p => p.db = db && p.table = table).or
    (policies.find? fun p => p.covers db table)

/-- The policy written for one database, or for `*`. -/
def findPolicy (policies : List RetentionPolicy) (db table : String) : Option RetentionPolicy :=
  policies.find? fun p => p.db = db && p.table = table

theorem policyOf_eq (policies : List RetentionPolicy) (db table : String) :
    policyOf policies db table =
      (findPolicy policies db table).or (findPolicy policies retentionAnyDb table) := by
  unfold policyOf findPolicy
  cases hexact : policies.find? fun p => p.db = db && p.table = table with
  | some p => rfl
  | none =>
      have hsame : policies.find? (fun p => p.covers db table) =
          policies.find? (fun p => p.db = retentionAnyDb && p.table = table) := by
        apply List.find?_congr
        intro p hp
        have hnot := List.find?_eq_none.mp hexact p hp
        by_cases htable : p.table = table <;>
          simp_all [RetentionPolicy.covers]
      rw [hsame]

/-- The lookup `set_rollup` makes for its own check. -/
def sourceRetention (policies : List RetentionPolicy) (d : RollupDef) : Option Nat :=
  ((findPolicy policies d.db d.source).map (·.seconds)).or
    ((findPolicy policies retentionAnyDb d.source).map (·.seconds))

/-- It finds the policy that enforcement applies. -/
theorem sourceRetention_eq (policies : List RetentionPolicy) (d : RollupDef) :
    sourceRetention policies d = (policyOf policies d.db d.source).map (·.seconds) := by
  rw [policyOf_eq, sourceRetention]
  cases findPolicy policies d.db d.source <;> rfl

def putPolicy (p : RetentionPolicy) (policies : List RetentionPolicy) : List RetentionPolicy :=
  putFirst (fun q => q.db = p.db && q.table = p.table) p policies

def dropPolicy (db table : String) (policies : List RetentionPolicy) : List RetentionPolicy :=
  policies.filter fun p => !(p.db = db && p.table = table)

theorem findPolicy_put (p : RetentionPolicy) (policies : List RetentionPolicy) (db table : String) :
    findPolicy (putPolicy p policies) db table =
      if p.db = db ∧ p.table = table then some p else findPolicy policies db table := by
  unfold findPolicy putPolicy
  rw [find?_putFirst]
  · simp
  · intro q hq
    simp only [Bool.and_eq_true, decide_eq_true_eq] at hq
    rw [hq.1, hq.2]
  · intro hp q hq
    simp only [Bool.and_eq_true, decide_eq_true_eq] at hp hq ⊢
    rw [hp.1, hp.2]
    exact hq

theorem findPolicy_drop (db' table' : String) (policies : List RetentionPolicy)
    (db table : String) :
    findPolicy (dropPolicy db' table' policies) db table =
      if db' = db ∧ table' = table then none else findPolicy policies db table := by
  unfold findPolicy dropPolicy
  rw [List.find?_filter]
  by_cases hkey : db' = db ∧ table' = table
  · rw [if_pos hkey, hkey.1, hkey.2, List.find?_eq_none]
    intro q _
    by_cases hq : q.db = db <;> simp [hq]
  · rw [if_neg hkey]
    apply List.find?_congr
    intro q _
    by_cases hq : q.db = db ∧ q.table = table
    · rw [hq.1, hq.2]
      by_cases hdb : db' = db
      · subst hdb
        have htable : table ≠ table' := fun heq => hkey ⟨rfl, heq.symm⟩
        simp [htable]
      · simp [Ne.symm hdb]
    · have hout : (q.db = db && q.table = table) = false := by simpa using hq
      simp [hout]

end Retention

section Rollups

def putRollup (d : RollupDef) (rollups : List RollupDef) : List RollupDef :=
  putFirst (fun x => x.db = d.db && x.name = d.name) d rollups

def dropRollup (db name : String) (rollups : List RollupDef) : List RollupDef :=
  rollups.filter fun x => !(x.db = db && x.name = name)

/-- The checks of `set_rollup`: the definition by itself, then its lookback
against what its source keeps. -/
def checkRollup (policies : List RetentionPolicy) (d : RollupDef) : Except RollupError Unit := do
  d.validate
  match sourceRetention policies d with
  | some secs =>
      if secs ≤ d.lookbackSecs then throw (.retentionShort d.db d.source secs d.lookbackSecs)
  | none => pure ()

/-- The lists of definitions that a sequence of `set_rollup` calls leaves,
whatever the policies were at each call. -/
inductive Accepted : List RollupDef → Prop where
  | nil : Accepted []
  | set {rollups : List RollupDef} (before : Accepted rollups) (policies : List RetentionPolicy)
      {d : RollupDef} (h : checkRollup policies d = .ok ()) : Accepted (putRollup d rollups)

theorem checkRollup_validate {policies : List RetentionPolicy} {d : RollupDef}
    (h : checkRollup policies d = .ok ()) : d.validate = .ok () := by
  obtain ⟨_, hv, _⟩ := bind_eq_ok.mp h
  exact hv

theorem Accepted.validate {rollups : List RollupDef} (h : Accepted rollups) {d : RollupDef}
    (hd : d ∈ rollups) : d.validate = .ok () := by
  induction h with
  | nil => cases hd
  | set before policies hcheck ih =>
      rcases mem_putFirst hd with rfl | hmem
      · exact checkRollup_validate hcheck
      · exact ih hmem

end Rollups

end TimeLake.Admin
