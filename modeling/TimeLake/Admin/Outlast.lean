import TimeLake.Admin.Machine
import TimeLake.Admin.Retention

/-!
What a source keeps against what its rollups look back on. `set_rollup` is the
one operation that checks it; a policy set or removed later, a definition
loaded at a start and one reloaded from the store are not checked. The
condition on each of these under which the relation is kept is stated against
the state before the step.
-/

namespace TimeLake.Admin

open TimeLake.Catalog
open TimeLake.Cluster
open TimeLake.Library
open TimeLake.Rows

variable {ι : Type} [DecidableEq ι]

/-- The policy in force for the source, if any, keeps longer than the lookback. -/
def Outlasts (policies : List RetentionPolicy) (d : RollupDef) : Prop :=
  ∀ p ∈ policyOf policies d.db d.source, d.lookbackSecs < p.seconds

instance (policies : List RetentionPolicy) (d : RollupDef) : Decidable (Outlasts policies d) :=
  inferInstanceAs (Decidable (∀ p ∈ policyOf policies d.db d.source, _))

def AllOutlast (policies : List RetentionPolicy) (rollups : List RollupDef) : Prop :=
  ∀ d ∈ rollups, Outlasts policies d

instance (policies : List RetentionPolicy) (rollups : List RollupDef) :
    Decidable (AllOutlast policies rollups) :=
  inferInstanceAs (Decidable (∀ d ∈ rollups, _))

section Condition

/-- A policy about to be set will govern the rollups of its own database, and
as a wildcard those of every database without a policy of its own. -/
def Governs (policies : List RetentionPolicy) (db table : String) (d : RollupDef) : Prop :=
  d.source = table ∧
    (d.db = db ∨ (db = retentionAnyDb ∧ findPolicy policies d.db table = none))

/-- Of a policy set: longer than the lookback of the rollups it will govern. Of
one removed: so is the wildcard behind it. -/
def Spares (m : Memory) : Call → Prop
  | .setRetention db table seconds =>
      ∀ d ∈ m.rollups, Governs m.policies db table d → d.lookbackSecs < seconds
  | .removeRetention db table =>
      ∀ d ∈ m.rollups, d.db = db ∧ d.source = table ∧ db ≠ retentionAnyDb →
        ∀ q ∈ findPolicy m.policies retentionAnyDb table, d.lookbackSecs < q.seconds
  | _ => True

/-- Calls that spare the rollups of their node, and definitions loaded only
where the policies beside them outlast them. -/
def Careful (env : ι → Env) (s : State ι) : Action ι → Prop
  | .call i c _ => ∀ m ∈ s.nodes i, Spares m c
  | .reload i => ∀ m ∈ s.nodes i, ∀ defs ∈ s.docs.rollups, AllOutlast m.policies defs
  | .boot i => AllOutlast (boot (env i) s.docs).policies (boot (env i) s.docs).rollups

instance (policies : List RetentionPolicy) (db table : String) (d : RollupDef) :
    Decidable (Governs policies db table d) :=
  inferInstanceAs (Decidable (_ ∧ _))

instance (m : Memory) : ∀ c, Decidable (Spares m c)
  | .setRetention db table seconds =>
      inferInstanceAs (Decidable (∀ d ∈ m.rollups,
        Governs m.policies db table d → d.lookbackSecs < seconds))
  | .removeRetention db table =>
      inferInstanceAs (Decidable (∀ d ∈ m.rollups,
        d.db = db ∧ d.source = table ∧ db ≠ retentionAnyDb →
          ∀ q ∈ findPolicy m.policies retentionAnyDb table, d.lookbackSecs < q.seconds))
  | .setRollup _ | .removeRollup _ _ | .enableLastCache _ _ | .disableLastCache _ _
  | .setConfig _ _ _ _ | .revertConfig _ => .isTrue trivial

instance (env : ι → Env) (s : State ι) : ∀ a, Decidable (Careful env s a)
  | .call i c _ => inferInstanceAs (Decidable (∀ m ∈ s.nodes i, Spares m c))
  | .reload i => inferInstanceAs (Decidable (∀ m ∈ s.nodes i, ∀ defs ∈ s.docs.rollups, _))
  | .boot _ => inferInstanceAs (Decidable (AllOutlast _ _))

end Condition

theorem Outlasts.of_checkRollup {policies : List RetentionPolicy} {d : RollupDef}
    (h : checkRollup policies d = .ok ()) : Outlasts policies d := by
  intro p hp
  obtain ⟨_, _, hrest⟩ := bind_eq_ok.mp h
  rw [sourceRetention_eq, hp, Option.map_some] at hrest
  dsimp only at hrest
  split at hrest
  · cases hrest
  · omega

/-- A policy set is in force where it governs, and nowhere else. -/
theorem Outlasts.putPolicy {policies : List RetentionPolicy} {d : RollupDef} {db table : String}
    {seconds : Nat} (h : Outlasts policies d)
    (hlonger : Governs policies db table d → d.lookbackSecs < seconds) :
    Outlasts (Admin.putPolicy ⟨db, table, seconds⟩ policies) d := by
  intro p hp
  have hold : ∀ q ∈ policyOf policies d.db d.source, d.lookbackSecs < q.seconds := h
  rw [policyOf_eq] at hold
  rw [policyOf_eq, findPolicy_put, findPolicy_put] at hp
  dsimp only at hp
  by_cases hexact : db = d.db ∧ table = d.source
  · rw [if_pos hexact, Option.some_or] at hp
    obtain rfl := Option.some.inj hp
    exact hlonger ⟨hexact.2.symm, .inl hexact.1.symm⟩
  · rw [if_neg hexact] at hp
    cases hfind : findPolicy policies d.db d.source with
    | some q =>
        rw [hfind, Option.some_or] at hp hold
        exact hold p hp
    | none =>
        rw [hfind, Option.none_or] at hp hold
        split at hp
        · next hwild =>
            obtain rfl := Option.some.inj hp
            exact hlonger ⟨hwild.2.symm, .inr ⟨hwild.1, hwild.2 ▸ hfind⟩⟩
        · exact hold p hp

theorem Outlasts.dropPolicy {policies : List RetentionPolicy} {d : RollupDef} {db table : String}
    (h : Outlasts policies d)
    (hbehind : d.db = db ∧ d.source = table ∧ db ≠ retentionAnyDb →
      ∀ q ∈ findPolicy policies retentionAnyDb table, d.lookbackSecs < q.seconds) :
    Outlasts (Admin.dropPolicy db table policies) d := by
  intro p hp
  have hold : ∀ q ∈ policyOf policies d.db d.source, d.lookbackSecs < q.seconds := h
  rw [policyOf_eq] at hold
  rw [policyOf_eq, findPolicy_drop, findPolicy_drop] at hp
  by_cases hexact : db = d.db ∧ table = d.source
  · rw [if_pos hexact, Option.none_or] at hp
    split at hp
    · cases hp
    · next hwild =>
        obtain ⟨rfl, rfl⟩ := hexact
        exact hbehind ⟨rfl, rfl, fun hany => hwild ⟨hany, rfl⟩⟩ p hp
  · rw [if_neg hexact] at hp
    cases hfind : findPolicy policies d.db d.source with
    | some q =>
        rw [hfind, Option.some_or] at hp hold
        exact hold p hp
    | none =>
        rw [hfind, Option.none_or] at hp hold
        split at hp
        · cases hp
        · exact hold p hp

/-- One call that spares the rollups keeps what is in force for them, whether or not its
put succeeds. -/
theorem AllOutlast.perform {m : Memory} {docs : Documents} {put : Put} {c : Call}
    (h : AllOutlast m.policies m.rollups) (hspares : Spares m c) :
    AllOutlast (Admin.perform m docs put c).1.policies (Admin.perform m docs put c).1.rollups := by
  cases c with
  | setRetention db table seconds => exact fun d hd => (h d hd).putPolicy (hspares d hd)
  | removeRetention db table => exact fun d hd => (h d hd).dropPolicy (hspares d hd)
  | setRollup d =>
      simp only [Admin.perform, setRollup]
      split
      · exact h
      · next hcheck =>
          intro x hx
          rcases mem_putFirst hx with rfl | hmem
          · exact .of_checkRollup hcheck
          · exact h x hmem
  | removeRollup db name => exact fun d hd => h d (List.mem_of_mem_filter hd)
  | enableLastCache db table => exact h
  | disableLastCache db table => exact h
  | setConfig key value actor writtenAt =>
      simp only [Admin.perform, setConfig]
      split
      · exact h
      · cases put <;> exact h
  | revertConfig key =>
      simp only [Admin.perform, revertConfig]
      split
      · exact h
      · exact h
      · cases put <;> exact h

/-- Every node that is running keeps the sources of its rollups long enough. -/
def NodesOutlast (s : State ι) : Prop :=
  ∀ i m, s.nodes i = some m → AllOutlast m.policies m.rollups

/-- A step that spares the rollups keeps the relation on every node. -/
theorem NodesOutlast.step {env : ι → Env} {s t : State ι} {a : Action ι} (h : NodesOutlast s)
    (hok : Careful env s a) (hstep : Admin.step env s a = some t) : NodesOutlast t := by
  intro i m hm
  cases a with
  | call j c put =>
      obtain ⟨old, hold, rfl⟩ := Option.map_eq_some_iff.mp hstep
      by_cases hi : i = j
      · subst hi
        obtain rfl : (perform old s.docs put c).1 = m := by simpa using hm
        exact (h i old hold).perform (hok old hold)
      · exact h i m (by simpa [hi] using hm)
  | reload j =>
      obtain ⟨old, hold, rfl⟩ := Option.map_eq_some_iff.mp hstep
      by_cases hi : i = j
      · subst hi
        obtain rfl : reloadRollups old s.docs = m := by simpa [State.setNode] using hm
        cases hdocs : s.docs.rollups with
        | none => simpa [reloadRollups, hdocs] using h i old hold
        | some defs => simpa [reloadRollups, hdocs] using hok old hold defs hdocs
      · exact h i m (by simpa [State.setNode, hi] using hm)
  | boot j =>
      obtain rfl := Option.some.inj hstep
      by_cases hi : i = j
      · subst hi
        obtain rfl : boot (env i) s.docs = m := by simpa [State.setNode] using hm
        exact hok
      · exact h i m (by simpa [State.setNode, hi] using hm)

end TimeLake.Admin
