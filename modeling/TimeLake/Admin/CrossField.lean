import TimeLake.Admin.Layers
import TimeLake.Admin.Machine

/-!
The one relation between settings: `gc_grace_secs` exceeds `query_timeout_secs`.
`set` checks it of the configuration it would leave; `revert` checks nothing,
and what an override hid may not stand in the relation.
-/

namespace TimeLake.Admin

open TimeLake.Ingest
open TimeLake.Library

/-- Two texts are numbers, the first of them the greater. -/
def Exceeds : Option String → Option String → Prop
  | some gc, some qt => (parseU64 gc.toList).any fun g => (parseU64 qt.toList).any fun q => q < g
  | _, _ => False

instance (gc qt : Option String) : Decidable (Exceeds gc qt) :=
  match gc, qt with
  | some _, some _ => inferInstanceAs (Decidable (_ = true))
  | some _, none => .isFalse id
  | none, _ => .isFalse id

namespace Layered

def CrossField (l : Layered) : Prop :=
  Exceeds (l.effective "gc_grace_secs") (l.effective "query_timeout_secs")

instance (l : Layered) : Decidable l.CrossField := inferInstanceAs (Decidable (Exceeds _ _))

/-- If one of the two settings is reverted, what it reverts to stands in the
relation with the other. -/
def RevertsTo (l : Layered) (key : String) : Prop :=
  (key = "gc_grace_secs" → Exceeds (l.below key) (l.effective "query_timeout_secs")) ∧
    (key = "query_timeout_secs" → Exceeds (l.effective "gc_grace_secs") (l.below key))

instance (l : Layered) (key : String) : Decidable (l.RevertsTo key) :=
  inferInstanceAs (Decidable ((_ → _) ∧ (_ → _)))

variable {l l' : Layered} {key : String} {value : Option String} {actor writtenAt : String}

theorem exceeds_iff {gc qt : Option String} :
    Exceeds gc qt ↔ ∃ gc' qt' g q, gc = some gc' ∧ qt = some qt' ∧
      parseU64 gc'.toList = some g ∧ parseU64 qt'.toList = some q ∧ q < g := by
  cases gc with
  | none => simp [Exceeds]
  | some gc =>
      cases qt with
      | none => simp [Exceeds]
      | some qt => simp [Exceeds, Option.any_eq_true]

/-- The check of a `set` sees the relation as long as the timeout is a number. -/
theorem crossField_of_validate (h : l.validateCrossField = .ok ())
    (hqt : ∃ qt q, l.effective "query_timeout_secs" = some qt ∧ parseU64 qt.toList = some q) :
    l.CrossField := by
  obtain ⟨qt, q, hqt, hq⟩ := hqt
  simp only [validateCrossField, number, hqt, Option.getD_some, hq] at h
  split at h
  · cases h
  · next hgt =>
      cases hgc : l.effective "gc_grace_secs" with
      | none =>
          have hempty : parseU64 [] = none := by decide
          simp [hgc, hempty] at hgt
      | some gc =>
          cases hg : parseU64 gc.toList with
          | none => simp [hgc, hg] at hgt
          | some g =>
              simp only [hgc, Option.getD_some, hg, not_le] at hgt
              exact exceeds_iff.mpr ⟨gc, qt, g, q, hgc, hqt, hg, hq, hgt⟩

theorem crossField_set (hcross : l.CrossField) (h : l.set key value actor writtenAt = .ok l') :
    l'.CrossField := by
  obtain ⟨⟨s, hs, hcheck⟩, _, _, hvalid⟩ := set_ok h
  refine crossField_of_validate hvalid ?_
  by_cases hkey : key = "query_timeout_secs"
  · subst hkey
    obtain rfl : s = ⟨"query_timeout_secs", .uint 1 86400, "600"⟩ :=
      Option.some.inj (hs.symm.trans (by decide))
    cases value with
    | none => simp [checkValue, Kind.allowsExplicitNone] at hcheck
    | some v =>
        have hv : checkUint 1 86400 v = .ok () := by
          simp only [checkValue, Kind.check] at hcheck
          cases hc : checkUint 1 86400 v with
          | ok u => rfl
          | error e => simp [hc, Except.mapError] at hcheck
        obtain ⟨q, hq⟩ := parse_of_checkUint hv
        exact ⟨v, q, (effective_set h _).trans (if_pos rfl), hq⟩
  · obtain ⟨_, qt, _, q, _, hqt, _, hq, _⟩ := exceeds_iff.mp hcross
    exact ⟨qt, q, ((effective_set h _).trans (if_neg (Ne.symm hkey))).trans hqt, hq⟩

theorem crossField_revert (hcross : l.CrossField) (hok : l.RevertsTo key) {removed : Bool}
    (h : l.revert key = .ok (removed, l')) : l'.CrossField := by
  have heffective := effective_revert h
  unfold CrossField
  rw [heffective, heffective]
  by_cases hgc : key = "gc_grace_secs"
  · subst hgc
    exact hok.1 rfl
  · by_cases hqt : key = "query_timeout_secs"
    · subst hqt
      exact hok.2 rfl
    · rw [if_neg (Ne.symm hgc), if_neg (Ne.symm hqt)]
      exact hcross

/-- The relation holds of the numbers that are published. -/
theorem crossField_materialize (h : l.CrossField) (retention : List Cluster.RetentionPolicy) :
    (materialize l retention).queryTimeoutSecs < (materialize l retention).gcGraceSecs := by
  obtain ⟨gc, qt, g, q, hgc, hqt, hg, hq, hlt⟩ := exceeds_iff.mp h
  simpa [materialize, number, hgc, hqt, hg, hq] using hlt

end Layered

section Runs

inductive ConfigCall where
  | set (key : String) (value : Option String) (actor writtenAt : String)
  | revert (key : String)

/-- `set_config` and `revert_config` on one node, whatever becomes of their
puts. -/
def configStep (s : Memory × Documents) : ConfigCall × Put → Option (Memory × Documents)
  | (.set key value actor writtenAt, put) =>
      let r := setConfig s.1 s.2 put key value actor writtenAt
      some (r.1, r.2.1)
  | (.revert key, put) =>
      let r := revertConfig s.1 s.2 put key
      some (r.1, r.2.1)

/-- An override is reverted only to a value that stands in the relation. -/
def RevertsWell (s : Memory × Documents) : ConfigCall × Put → Prop
  | (.set _ _ _ _, _) => True
  | (.revert key, _) => s.1.layered.pinned.contains key = false → s.1.layered.RevertsTo key

instance (s : Memory × Documents) : DecidablePred (RevertsWell s)
  | (.set _ _ _ _, _) => .isTrue trivial
  | (.revert _, _) => inferInstanceAs (Decidable (_ → _))

def CrossFieldKept (m : Memory) : Prop :=
  m.layered.CrossField ∧ m.cfg.queryTimeoutSecs < m.cfg.gcGraceSecs

theorem CrossFieldKept.persist {m : Memory} (h : CrossFieldKept m) {l : Layered}
    (hcross : l.CrossField) (docs : Documents) (put : Put) :
    CrossFieldKept (persistConfig m docs put l).1 := by
  unfold persistConfig
  split
  · exact ⟨hcross, h.2⟩
  · exact ⟨hcross, Layered.crossField_materialize hcross m.policies⟩

theorem CrossFieldKept.step {s t : Memory × Documents} {a : ConfigCall × Put}
    (h : CrossFieldKept s.1) (hok : RevertsWell s a) (hstep : configStep s a = some t) :
    CrossFieldKept t.1 := by
  obtain ⟨c, put⟩ := a
  cases c with
  | set key value actor writtenAt =>
      obtain rfl := Option.some.inj hstep
      change CrossFieldKept (setConfig s.1 s.2 put key value actor writtenAt).1
      unfold setConfig
      split
      · exact h
      · next l hset => exact h.persist (Layered.crossField_set h.1 hset) _ _
  | revert key =>
      obtain rfl := Option.some.inj hstep
      change CrossFieldKept (revertConfig s.1 s.2 put key).1
      unfold revertConfig
      split
      · exact h
      · exact h
      · next l hrevert =>
          obtain ⟨_, hpinned, _⟩ := Layered.revert_ok hrevert
          exact h.persist (Layered.crossField_revert h.1 (hok hpinned) hrevert) _ _

end Runs

/-- From a boot where the relation holds, in a run where every override is
reverted only to a value that stands in it, the relation holds of the effective
values and of the published configuration in every state. -/
theorem cross_field_kept {m : Memory} {docs : Documents} (hboot : m.layered.CrossField)
    (hcfg : m.cfg = materialize m.layered m.policies) {acts : List (ConfigCall × Put)}
    {s : Memory × Documents} (hrun : Run configStep RevertsWell (m, docs) acts s) :
    s.1.layered.CrossField ∧ s.1.cfg.queryTimeoutSecs < s.1.cfg.gcGraceSecs := by
  have hinit : CrossFieldKept m := ⟨hboot, hcfg ▸ Layered.crossField_materialize hboot m.policies⟩
  exact hrun.invariant (P := fun s => CrossFieldKept s.1)
    (fun _ _ _ h hok hstep => h.step hok hstep) hinit

def defaultBoot : Memory := boot ⟨.default, [], []⟩ ⟨none, none, none, none⟩

/-- Both settings are raised, and the timeout is reverted first. -/
def revertedInOrder : List (ConfigCall × Put) :=
  [(.set "gc_grace_secs" (some "2000") "admin" "t1", .stored),
    (.set "query_timeout_secs" (some "1500") "admin" "t2", .stored),
    (.revert "query_timeout_secs", .stored), (.revert "gc_grace_secs", .stored)]

theorem revertedInOrder_kept : ∃ s,
    Run configStep RevertsWell (defaultBoot, ⟨none, none, none, none⟩) revertedInOrder s ∧
      s.1.layered.revision = 4 ∧
      s.1.layered.CrossField ∧ s.1.cfg.queryTimeoutSecs < s.1.cfg.gcGraceSecs := by
  obtain ⟨s, run, hrevision⟩ := exists_run_with configStep RevertsWell
    (defaultBoot, ⟨none, none, none, none⟩) revertedInOrder
    (fun s => s.1.layered.revision = 4) (by decide +kernel)
  exact ⟨s, run, hrevision, cross_field_kept (by decide +kernel) rfl run⟩

/-- Both settings are raised, and the grace is reverted while the timeout is not. -/
def revertedGrace : List (ConfigCall × Put) :=
  [(.set "gc_grace_secs" (some "2000") "admin" "t1", .stored),
    (.set "query_timeout_secs" (some "1500") "admin" "t2", .stored),
    (.revert "gc_grace_secs", .stored)]

theorem revertedGrace_breaks : defaultBoot.layered.CrossField ∧ ∃ s,
    Run configStep (fun _ _ => True) (defaultBoot, ⟨none, none, none, none⟩) revertedGrace s ∧
      ¬ s.1.layered.CrossField ∧ s.1.cfg.gcGraceSecs = 900 ∧ s.1.cfg.queryTimeoutSecs = 1500 :=
  ⟨by decide +kernel, exists_run_with _ _ _ _ _ (by decide +kernel)⟩

end TimeLake.Admin
