import TimeLake.Admin.Definitions
import TimeLake.Rows.Calendar

/-!
What retention removes. `enforce_retention` compares the partition of a file
with the hour of a cutoff it computes in 64 bits, so the question is when that
cutoff is the instant the policy means. The windows themselves come from
`parse_duration_secs` (the admin surface) and `parse_retention` (the
environment).
-/

namespace TimeLake.Admin

open TimeLake.Catalog
open TimeLake.Cluster
open TimeLake.Ingest
open TimeLake.Library
open TimeLake.Rows

section Parsing

/-- `"365d"`, `"72h"`, `"90m"`, `"30s"` or bare seconds; nothing on overflow. -/
def parseDurationSecs (s : String) : Option Nat := do
  let text := trim s.toList
  let last ← text.getLast?
  let (num, unit) := match last with
    | 'd' => (text.dropLast, 86400)
    | 'h' => (text.dropLast, 3600)
    | 'm' => (text.dropLast, 60)
    | 's' => (text.dropLast, 1)
    | _ => (text, 1)
  let n ← parseU64 (trim num)
  if n * unit < 2 ^ 64 ∧ 0 < n * unit then some (n * unit) else none

/-- `str::split_once`. -/
def splitOnce (c : Char) (text : List Char) : Option (List Char × List Char) :=
  match text.span (· ≠ c) with
  | (before, _ :: after) => some (before, after)
  | (_, []) => none

/-- One part of `TIMELAKE_RETENTION`; the product wraps. -/
def parsePolicy (part : List Char) : Option RetentionPolicy := do
  let (scope, dur) ← splitOnce '=' (trim part)
  let dur := trim dur
  let (num, unit) := match dur.getLast? with
    | some 'd' => (dur.dropLast, 86400)
    | some 'h' => (dur.dropLast, 3600)
    | _ => (dur, 1)
  let scope := trim scope
  let (db, table) := match splitOnce '.' scope with
    | some (db, table) => (String.ofList (trim db), String.ofList (trim table))
    | none => (retentionAnyDb, String.ofList scope)
  let n ← parseU64 num
  return ⟨db, table, n * unit % 2 ^ 64⟩

def parseRetention (spec : String) : List RetentionPolicy :=
  (spec.toList.splitOn ',').filterMap parsePolicy

-- more days than a `u64` has seconds for come out as seventeen hours
example : (parseRetention "a=90d, b.c=213503982334602d").map (·.seconds) = [7776000, 61184] := by
  decide +kernel

end Parsing

/-- The files that a pass takes out of the catalog. -/
def enforceRetention (policies : List RetentionPolicy) (now : Int) (files : List FileMeta) :
    List FileMeta :=
  files.filter (expired policies now)

/-- A catalog whose files hold the rows of one hour each, the hour their
partition names. -/
def Partitioned (content : String → List Row) (files : List FileMeta) : Prop :=
  ∀ f ∈ files, ∀ r ∈ content f.path, IsI64 r.time ∧ f.partition = r.hour

/-- A policy that covers a table, and no policy for the very database does if
this one does not name it. -/
structure MostSpecific (policies : List RetentionPolicy) (f : FileMeta) (p : RetentionPolicy) :
    Prop where
  mem : p ∈ policies
  covers : p.covers f.db f.table
  exact : p.db ≠ f.db → ∀ q ∈ policies, ¬(q.db = f.db ∧ q.table = f.table)

/-- Every file removed has such a policy, and all its rows are older than the
window of that policy. -/
def RemovesOnlyOlder (policies : List RetentionPolicy) (now : Int) : Prop :=
  ∀ files content, Partitioned content files → ∀ f ∈ enforceRetention policies now files,
    ∃ p, policyFor policies f = some p ∧ MostSpecific policies f p ∧
      ∀ r ∈ content f.path, r.time < now - p.seconds * 1000000000

/-- The nanoseconds of the 64-bit range in its first hour, which has no other
hour before it. -/
def firstHour : Int := floorTo hourNs (-2 ^ 63) + hourNs + 2 ^ 63

/-- The window reaches back no further than the 64-bit range, or by so much
more than 2^64 nanoseconds that the difference is in the first hour again. -/
def WindowFits (now : Int) (seconds : Nat) : Prop :=
  -2 ^ 63 ≤ now - seconds * 1000000000 ∨
    (now - seconds * 1000000000 + 2 ^ 63) % 2 ^ 64 < firstHour

theorem policyFor_mostSpecific {policies : List RetentionPolicy} {f : FileMeta}
    {p : RetentionPolicy} (h : policyFor policies f = some p) : MostSpecific policies f p := by
  unfold policyFor at h
  rcases Option.or_eq_some_iff.mp h with hexact | ⟨hnone, hcovers⟩
  · have hp := List.find?_some hexact
    simp only [Bool.and_eq_true, decide_eq_true_eq] at hp
    refine ⟨List.mem_of_find?_eq_some hexact, ?_, fun hne => absurd hp.1 hne⟩
    simp [RetentionPolicy.covers, hp]
  · have hp := List.find?_some hcovers
    refine ⟨List.mem_of_find?_eq_some hcovers, hp, ?_⟩
    intro _ q hq hboth
    have hnot := List.find?_eq_none.mp hnone q hq
    simp [hboth] at hnot

theorem retentionCutoff_eq (now : Int) (seconds : Nat) :
    retentionCutoff now seconds = wrap64 (now - seconds * 1000000000) := by
  unfold retentionCutoff
  simp only [wrap64_eq_emod]
  omega

/-- What is before the cutoff hour is before the cutoff. -/
theorem lt_floorTo_of_hourPartition_lt {t c : Int} (ht : IsI64 t) (hc : IsI64 c)
    (h : hourPartition t < hourPartition c) : t < floorTo hourNs c := by
  have hlt := (hourPartition_lt_iff ht hc).mp h
  unfold hourNs floorTo at *
  omega

section Window

variable {now : Int} {seconds : Nat}

theorem WindowFits.older (hnow : IsI64 now) (hfits : WindowFits now seconds) {t : Int}
    (ht : IsI64 t) (h : t < floorTo hourNs (retentionCutoff now seconds)) :
    t < now - seconds * 1000000000 := by
  obtain ⟨hlo, hhi⟩ := hnow
  obtain ⟨htlo, _⟩ := ht
  rw [retentionCutoff_eq, wrap64_eq_emod] at h
  unfold floorTo hourNs at h
  rcases hfits with hfits | hfits
  · omega
  · unfold firstHour floorTo hourNs at hfits
    omega

/-- Otherwise there is an instant before the cutoff hour, and it is younger
than the window. -/
theorem exists_younger (hnow : IsI64 now) (hfits : ¬WindowFits now seconds) :
    ∃ t, IsI64 t ∧ hourPartition t < hourPartition (retentionCutoff now seconds) ∧
      now - seconds * 1000000000 ≤ t := by
  have hcutoff : IsI64 (retentionCutoff now seconds) := isI64_wrap64 _
  obtain ⟨hlo, hhi⟩ := hnow
  unfold WindowFits firstHour floorTo hourNs at hfits
  have ht : IsI64 (retentionCutoff now seconds / hourNs * hourNs - 1) := by
    rw [retentionCutoff_eq, wrap64_eq_emod]
    unfold IsI64 hourNs
    omega
  refine ⟨_, ht, (hourPartition_lt_iff ht hcutoff).mpr ?_, ?_⟩
  · unfold hourNs
    omega
  · have hlow := ht.1
    omega

end Window

/-- The rows of a file that is removed, when the window of its policy fits. -/
theorem older_of_expired {policies : List RetentionPolicy} {now : Int} (hnow : IsI64 now)
    {f : FileMeta} {p : RetentionPolicy} (hp : policyFor policies f = some p)
    (hfits : WindowFits now p.seconds) (hexpired : expired policies now f) {r : Row}
    (htime : IsI64 r.time) (hpartition : f.partition = r.hour) :
    r.time < now - p.seconds * 1000000000 := by
  rw [expired, hp, Option.any_some, hpartition, decide_eq_true_eq] at hexpired
  exact hfits.older hnow htime
    (lt_floorTo_of_hourPartition_lt htime (isI64_wrap64 _) hexpired)

/-- Retention removes only files that are wholly older than the window of the
policy in force exactly when no window in force leaves the 64-bit range. -/
theorem removes_only_older_iff (policies : List RetentionPolicy) {now : Int} (hnow : IsI64 now) :
    RemovesOnlyOlder policies now ↔
      ∀ db table p, policyOf policies db table = some p → WindowFits now p.seconds := by
  constructor
  · intro hsafe db table p hp
    by_contra hfits
    obtain ⟨t, ht, hbefore, hyounger⟩ := exists_younger hnow hfits
    -- a file of this table with one row, at that instant
    let f : FileMeta := ⟨db, table, hourPartition t, "", 1, 0, t, t⟩
    let r : Row := ⟨t, ⟨[], .nil⟩, [], 0⟩
    have hpolicy : policyFor policies f = some p := hp
    have hpartitioned : Partitioned (fun _ => [r]) [f] := by
      intro f' hf' r' hr'
      obtain rfl := List.mem_singleton.mp hf'
      obtain rfl := List.mem_singleton.mp hr'
      exact ⟨ht, rfl⟩
    have hremoved : f ∈ enforceRetention policies now [f] := by
      apply List.mem_filter.mpr
      refine ⟨List.mem_singleton_self f, ?_⟩
      rw [expired, hpolicy]
      simpa [f] using hbefore
    obtain ⟨q, hq, _, holder⟩ := hsafe [f] (fun _ => [r]) hpartitioned f hremoved
    obtain rfl : p = q := Option.some.inj (hpolicy.symm.trans hq)
    have hlt := holder r (List.mem_singleton_self r)
    exact absurd hlt (not_lt.mpr hyounger)
  · intro hfits files content hpartitioned f hf
    obtain ⟨hmem, hexpired⟩ := List.mem_filter.mp hf
    obtain ⟨p, hp, _⟩ := (Option.any_eq_true _ _).mp hexpired
    refine ⟨p, hp, policyFor_mostSpecific hp, ?_⟩
    intro r hr
    obtain ⟨htime, hpartition⟩ := hpartitioned f hmem r hr
    exact older_of_expired hnow hp (hfits f.db f.table p hp) hexpired htime hpartition

/-- Ninety days, at an instant of 2026. -/
theorem ninety_days_fit :
    RemovesOnlyOlder (parseRetention "events=90d") 1786179600000000000 := by
  apply (removes_only_older_iff _ (by decide)).mpr
  intro db table p hp
  have hmem := (policyFor_mostSpecific (f := ⟨db, table, "", "", 0, 0, 0, 0⟩) hp).mem
  have hall : ∀ q ∈ parseRetention "events=90d", q.seconds = 7776000 := by decide +kernel
  left
  rw [hall p hmem]
  norm_num

/-- A window of four hundred years, which the admin surface takes, wraps to a
cutoff in the twenty-third century: the rows of the current hour are gone. -/
theorem four_centuries_remove_now :
    parseDurationSecs "146000d" = some 12614400000 ∧
      ¬RemovesOnlyOlder (putPolicy ⟨"d", "events", 12614400000⟩ []) 1786179600000000000 := by
  refine ⟨by decide +kernel, ?_⟩
  intro hsafe
  obtain ⟨p, hp, _, holder⟩ := hsafe
    [⟨"d", "events", "2026080809", "f", 1, 0, 1786179600000000000, 1786179600000000000⟩]
    (fun _ => [⟨1786179600000000000, ⟨[], .nil⟩, [], 0⟩])
    (by
      intro f hf r hr
      obtain rfl := List.mem_singleton.mp hf
      obtain rfl := List.mem_singleton.mp hr
      exact ⟨by decide, by decide +kernel⟩)
    _ (List.mem_filter.mpr ⟨List.mem_singleton_self _, by decide +kernel⟩)
  have hlt := holder _ (List.mem_singleton_self _)
  have hpos : (0 : Int) ≤ p.seconds * 1000000000 := by omega
  dsimp only at hlt
  omega

end TimeLake.Admin
