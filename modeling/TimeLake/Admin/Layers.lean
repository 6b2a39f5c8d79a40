import TimeLake.Admin.Config
import TimeLake.Library.Fallible

/-!
What a change of the override layer does to the value in force of every key, and
what `materialize` makes of a value that `set` accepts.
-/

namespace TimeLake.Admin

open TimeLake.Cluster
open TimeLake.Ingest
open TimeLake.Library

namespace Layered

/-- The value under the override layer. -/
def below (l : Layered) (key : String) : Option String :=
  (spec key).map fun s => (l.property.lookup key).getD s.default

/-- `divergent`: the keys whose override was written over a property value that
is not the present one. -/
def divergent (l : Layered) : List String :=
  (l.overrides.filter fun p => p.2.propertyAtWrite.any fun v => l.property.lookup p.1 ≠ some v).map
    Prod.fst

variable {l l' : Layered} {key : String} {value : Option String} {actor writtenAt : String}

theorem effective_eq (l : Layered) (key : String) :
    l.effective key = (spec key).map fun s =>
      match l.overrides.lookup key with
      | some o => o.value.getD ""
      | none => (l.property.lookup key).getD s.default := by
  unfold effective
  cases spec key with
  | none => rfl
  | some s => cases l.overrides.lookup key <;> rfl

theorem effective_of_none (h : l.overrides.lookup key = none) : l.effective key = l.below key := by
  rw [effective_eq, h]
  rfl

theorem effective_of_some {o : StoredOverride} (hspec : (spec key).isSome)
    (h : l.overrides.lookup key = some o) : l.effective key = some (o.value.getD "") := by
  obtain ⟨s, hs⟩ := Option.isSome_iff_exists.mp hspec
  rw [effective_eq, h, hs]
  rfl

/-- The override a successful `set` writes. -/
def written (l : Layered) (key : String) (value : Option String) (actor writtenAt : String) :
    StoredOverride :=
  ⟨value, l.revision + 1, actor, writtenAt, l.property.lookup key⟩

/-- All a successful `set` does, and what it checked. -/
theorem set_ok (h : l.set key value actor writtenAt = .ok l') :
    (∃ s, spec key = some s ∧ checkValue s key value = .ok ()) ∧ l.pinned.contains key = false ∧
      l' = { l with
        overrides := insertPair key (l.written key value actor writtenAt) l.overrides
        revision := l.revision + 1 } ∧
      l'.validateCrossField = .ok () := by
  obtain ⟨s, hspec, h⟩ := bind_eq_ok.mp h
  have hs : spec key = some s := by
    cases hfound : spec key with
    | none => simp [hfound] at hspec
    | some s' =>
        rw [hfound] at hspec
        exact congrArg some (Except.ok.inj hspec)
  split at h
  · cases h
  · next hpinned =>
      obtain ⟨_, hcheck, h⟩ := bind_eq_ok.mp h
      obtain ⟨_, hcross, h⟩ := bind_eq_ok.mp h
      obtain rfl := Except.ok.inj h
      exact ⟨⟨s, hs, hcheck⟩, by simpa using hpinned, rfl, hcross⟩

/-- All a successful `revert` does. -/
theorem revert_ok {removed : Bool} (h : l.revert key = .ok (removed, l')) :
    (spec key).isSome ∧ l.pinned.contains key = false ∧ l'.property = l.property ∧
      l'.pinned = l.pinned ∧ l'.overrides = l.overrides.filter (fun p => p.1 != key) := by
  unfold revert at h
  split at h
  · cases h
  · next hspec =>
      split at h
      · cases h
      · next hpinned =>
          refine ⟨Option.isSome_iff_ne_none.mpr (by simpa using hspec), by simpa using hpinned, ?_⟩
          split at h
          · cases h
            exact ⟨rfl, rfl, rfl⟩
          · next hnone =>
              cases h
              refine ⟨rfl, rfl, ?_⟩
              have hout := List.lookup_eq_none_iff.mp (Option.not_isSome_iff_eq_none.mp hnone)
              refine (List.filter_eq_self.mpr fun p hp => ?_).symm
              exact bne_iff_ne.mpr (ne_of_beq_false (Bool.not_eq_true' .. ▸ hout p hp)).symm

theorem lookup_set (h : l.set key value actor writtenAt = .ok l') (other : String) :
    l'.overrides.lookup other =
      if other = key then some (l.written key value actor writtenAt)
      else l.overrides.lookup other := by
  obtain ⟨_, _, rfl, _⟩ := set_ok h
  exact lookup_insertPair _ _ _ _

theorem lookup_revert {removed : Bool} (h : l.revert key = .ok (removed, l')) (other : String) :
    l'.overrides.lookup other = if other = key then none else l.overrides.lookup other := by
  obtain ⟨_, _, _, _, hoverrides⟩ := revert_ok h
  rw [hoverrides, lookup_filter_fst (fun k => k != key)]
  by_cases hkey : other = key <;> simp [hkey]

theorem effective_set (h : l.set key value actor writtenAt = .ok l') (other : String) :
    l'.effective other = if other = key then some (value.getD "") else l.effective other := by
  obtain ⟨⟨s, hs, _⟩, _, heq, _⟩ := set_ok h
  have hlookup := lookup_set h other
  split
  · next hkey =>
      rw [if_pos hkey] at hlookup
      subst hkey
      exact effective_of_some (by simp [hs]) hlookup
  · next hkey =>
      rw [if_neg hkey] at hlookup
      rw [effective_eq, effective_eq, hlookup, heq]

theorem effective_revert {removed : Bool} (h : l.revert key = .ok (removed, l'))
    (other : String) :
    l'.effective other = if other = key then l.below key else l.effective other := by
  obtain ⟨_, _, hproperty, _, _⟩ := revert_ok h
  have hlookup := lookup_revert h other
  split
  · next hkey =>
      rw [if_pos hkey] at hlookup
      subst hkey
      rw [effective_of_none hlookup, below, below, hproperty]
  · next hkey =>
      rw [if_neg hkey] at hlookup
      rw [effective_eq, effective_eq, hlookup, hproperty]

theorem mem_divergent (hsorted : Increasing l.overrides) :
    key ∈ l.divergent ↔ ∃ o v, l.overrides.lookup key = some o ∧ o.propertyAtWrite = some v ∧
      l.property.lookup key ≠ some v := by
  simp only [divergent, List.mem_map, List.mem_filter, Option.any_eq_true, decide_eq_true_eq]
  constructor
  · rintro ⟨⟨k, o⟩, ⟨hmem, v, hv, hne⟩, rfl⟩
    exact ⟨o, v, hsorted.lookup_eq_some.mpr hmem, hv, hne⟩
  · rintro ⟨o, v, hlookup, hv, hne⟩
    exact ⟨(key, o), ⟨hsorted.lookup_eq_some.mp hlookup, v, hv, hne⟩, rfl⟩

end Layered

section Values

/-- A field of the configuration, or a value as it is meant. -/
inductive Field where
  | number (n : Nat)
  | optNumber (n : Option Nat)
  | mode (m : DataAuthMode)
  deriving DecidableEq, Repr

def EngineConfig.field (c : EngineConfig) : String → Option Field
  | "flush_rows" => some (.number c.flushRows)
  | "flush_age_secs" => some (.number c.flushAgeSecs)
  | "wal_max_bytes" => some (.number c.walMaxBytes)
  | "compact_min_files" => some (.number c.compactMinFiles)
  | "l0_row_group_rows" => some (.optNumber c.l0RowGroupRows)
  | "max_concurrent_queries" => some (.number c.maxConcurrentQueries)
  | "max_concurrent_queries_per_client" => some (.number c.maxConcurrentQueriesPerClient)
  | "query_timeout_secs" => some (.number c.queryTimeoutSecs)
  | "max_result_rows" => some (.number c.maxResultRows)
  | "gc_grace_secs" => some (.number c.gcGraceSecs)
  | "query_mem_bytes" => some (.number c.queryMemBytes)
  | "repl_timeout_ms" => some (.number c.replTimeoutMs)
  | "max_body_bytes" => some (.number c.maxBodyBytes)
  | "internal_max_concurrent" => some (.number c.internalMaxConcurrent)
  | "data_auth" => some (.mode c.dataAuth)
  | _ => none

/-- What a text of the kind says; `none` where it says nothing. -/
def Kind.meaning : Kind → String → Option Field
  | .uint _ _, value => (parseU64 value.toList).map .number
  | .optUint _ _, value =>
      if value = "" ∨ value = "off" then some (.optNumber none)
      else (parseU64 value.toList).map fun n => .optNumber (some n)
  | .enum _, value =>
      if value = "off" then some (.mode .off)
      else if value = "optional" then some (.mode .optional)
      else if value = "required" then some (.mode .required)
      else none

theorem parse_of_checkUint {min max : Nat} {value : String}
    (h : checkUint min max value = .ok ()) : ∃ n, parseU64 value.toList = some n := by
  unfold checkUint at h
  split at h
  · cases h
  · next n hn => exact ⟨n, hn⟩

/-- An accepted number is what the field of its key becomes. -/
theorem number_of_check {l : Layered} {key value : String} {min max d : Nat}
    (hvalue : l.effective key = some value) (h : Kind.check (.uint min max) value = .ok ()) :
    some (Field.number (l.number key d)) = Kind.meaning (.uint min max) value := by
  obtain ⟨n, hn⟩ := parse_of_checkUint h
  simp [Layered.number, Kind.meaning, hvalue, hn]

/-- A value that `set` accepts is materialised as what it says. -/
theorem field_materialize {l : Layered} {s : Spec} {value : String}
    (retention : List RetentionPolicy) (hs : s ∈ inventory)
    (hvalue : l.effective s.key = some value) (h : s.kind.check value = .ok ()) :
    (materialize l retention).field s.key = s.kind.meaning value ∧
      (s.kind.meaning value).isSome := by
  have hoption : ∀ min max, s = ⟨"l0_row_group_rows", .optUint min max, ""⟩ →
      (materialize l retention).field s.key = s.kind.meaning value ∧
        (s.kind.meaning value).isSome := by
    rintro min max rfl
    simp only [EngineConfig.field, materialize, Kind.meaning, hvalue, Option.getD_some]
    by_cases hnone : value = "" ∨ value = "off"
    · simp [hnone]
    · rw [Kind.check, if_neg hnone] at h
      obtain ⟨n, hn⟩ := parse_of_checkUint h
      simp [hnone, hn]
  have hmode : s = ⟨"data_auth", .enum ["off", "optional", "required"], "optional"⟩ →
      (materialize l retention).field s.key = s.kind.meaning value ∧
        (s.kind.meaning value).isSome := by
    rintro rfl
    have hallowed : value = "off" ∨ value = "optional" ∨ value = "required" := by
      have hin : ["off", "optional", "required"].contains value = true := by
        simp only [Kind.check] at h
        split at h
        · assumption
        · cases h
      simpa using hin
    rcases hallowed with rfl | rfl | rfl <;>
      simp [EngineConfig.field, materialize, Kind.meaning, hvalue, parseDataAuth]
  have hnumber : ∀ min max, s.kind = .uint min max → (s.kind.meaning value).isSome := by
    intro min max hkind
    rw [hkind] at h ⊢
    obtain ⟨n, hn⟩ := parse_of_checkUint h
    simp [Kind.meaning, hn]
  simp only [inventory, List.mem_cons, List.not_mem_nil, or_false] at hs
  rcases hs with rfl | rfl | rfl | rfl | rfl | rfl | rfl | rfl | rfl | rfl | rfl | rfl | rfl |
    rfl | rfl
  case inr.inr.inr.inr.inl => exact hoption _ _ rfl
  case inr.inr.inr.inr.inr.inr.inr.inr.inr.inr.inr.inr.inr.inr => exact hmode rfl
  all_goals exact ⟨number_of_check hvalue h, hnumber _ _ rfl⟩

end Values

end TimeLake.Admin
