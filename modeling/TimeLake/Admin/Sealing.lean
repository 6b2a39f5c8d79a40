import TimeLake.Admin.Outlast
import TimeLake.Rollup.Sealed

/-!
Retention and rollups in one run. A retention pass takes rows out of a source, and a
pass over a rollup seals the buckets between the window of the pass before and its
own. A bucket ends an interval after it begins and is sealed the lookback after that,
so a source kept longer than the lookback alone can lose rows of a bucket that is
still open. It does not where each retention pass comes soon enough after a pass over
the rollups of the tables it takes rows from.
-/

namespace TimeLake.Admin

open TimeLake.Catalog
open TimeLake.Cluster
open TimeLake.Library
open TimeLake.Rollup (nanos stepNs lookbackNs bucket high sourceKey Representable
  high_eq stepNs_pos)
open TimeLake.Rows

section Machine

/-- What is in the catalog: its files, and the rows of each. -/
structure Holdings where
  files : List FileMeta
  content : String → List Row
  partitioned : Partitioned content files

/-- Table and instant of the rows that retention takes. -/
def Holdings.removed (h : Holdings) (policies : List RetentionPolicy) (now : Int) :
    List (TableKey × Int) :=
  (enforceRetention policies now h.files).flatMap fun f =>
    (h.content f.path).map fun r => ((f.db, f.table), r.time)

/-- The nodes, the rows that retention has taken so far, and the clock of the last pass
over each definition. -/
structure Upkeep (ι : Type) where
  admin : State ι
  gone : List (TableKey × Int)
  passed : RollupDef → Option Int

namespace Upkeep

inductive Action (ι : Type) where
  | admin (a : Admin.Action ι)
  | materializeOne (i : ι) (d : RollupDef) (now : Int)
  | enforceRetention (i : ι) (now : Int) (holdings : Holdings)

variable {ι : Type} [DecidableEq ι]

def start (docs : Documents) : Upkeep ι := ⟨Admin.start docs, [], fun _ => none⟩

/-- A pass that fails writes and removes nothing, and is no step. -/
def step (env : ι → Env) (s : Upkeep ι) : Action ι → Option (Upkeep ι)
  | .admin a => (Admin.step env s.admin a).map fun admin => { s with admin := admin }
  | .materializeOne i d now =>
      (s.admin.nodes i).bind fun m =>
        if d ∈ m.rollups ∧ IsI64 now ∧ (s.passed d).all (· ≤ now) then
          some { s with passed := Function.update s.passed d (some now) }
        else none
  | .enforceRetention i now holdings =>
      (s.admin.nodes i).bind fun m =>
        if IsI64 now then some { s with gone := s.gone ++ holdings.removed m.policies now }
        else none

/-- The bucket from `b` on is in the window of a pass at `now`. -/
def Seals (s : Upkeep ι) (d : RollupDef) (now b : Int) : Prop :=
  b < high d now ∧ ∀ c ∈ s.passed d, high d c ≤ b

/-- What retention has taken of the source is behind the window of the last pass. -/
def GoneSealed (s : Upkeep ι) (d : RollupDef) : Prop :=
  ∀ g ∈ s.gone, g.1 = sourceKey d → ∃ c ∈ s.passed d, bucket d g.2 < high d c

/-- The source is kept for an interval and the lookback, and for as long as it is since
the last pass. -/
def InTime (s : Upkeep ι) (policies : List RetentionPolicy) (now : Int) (d : RollupDef) : Prop :=
  ∀ p ∈ policyOf policies d.db d.source,
    ∃ c ∈ s.passed d, now - c + stepNs d + lookbackNs d ≤ p.seconds * nanos

/-- The definitions that an action puts into force. -/
def activated (env : ι → Env) (s : State ι) : Admin.Action ι → List RollupDef
  | .call _ (.setRollup d) _ => [d]
  | .call _ _ _ => []
  | .reload _ => s.docs.rollups.getD []
  | .boot i => (Admin.boot (env i) s.docs).rollups

/-- Policies and definitions are changed with care, definitions put into force before
retention has reached into their open buckets, and rows of a source removed in time after
a pass over each of its rollups. -/
def Careful (env : ι → Env) (s : Upkeep ι) : Action ι → Prop
  | .admin a => Admin.Careful env s.admin a ∧ ∀ d ∈ activated env s.admin a, s.GoneSealed d
  | .materializeOne _ d now => d.validate = .ok () ∧ Representable d now
  | .enforceRetention i now holdings =>
      ∀ m ∈ s.admin.nodes i, (∀ p ∈ m.policies, WindowFits now p.seconds) ∧
        ∀ j, ∀ n ∈ s.admin.nodes j, ∀ d ∈ n.rollups,
          (∃ g ∈ holdings.removed m.policies now, g.1 = sourceKey d) → s.InTime m.policies now d

end Upkeep

end Machine

section Invariant

/-- A row that retention takes is older than the policy in force keeps it. -/
theorem Holdings.older_of_removed {h : Holdings} {policies : List RetentionPolicy} {now : Int}
    (hnow : IsI64 now) (hfits : ∀ p ∈ policies, WindowFits now p.seconds) {g : TableKey × Int}
    (hg : g ∈ h.removed policies now) :
    ∃ p ∈ policyOf policies g.1.1 g.1.2, g.2 < now - p.seconds * nanos := by
  obtain ⟨f, hf, hrow⟩ := List.mem_flatMap.mp hg
  obtain ⟨r, hr, rfl⟩ := List.mem_map.mp hrow
  obtain ⟨hmem, hexpired⟩ := List.mem_filter.mp hf
  obtain ⟨p, hp, _⟩ := (Option.any_eq_true _ _).mp hexpired
  obtain ⟨htime, hpartition⟩ := h.partitioned f hmem r hr
  have hin := (policyFor_mostSpecific hp).mem
  exact ⟨p, hp, older_of_expired hnow hp (hfits p hin) hexpired htime hpartition⟩

/-- The bucket of an instant that lies an interval and the lookback before a pass is
behind its window. -/
theorem bucket_lt_high {d : RollupDef} {c t : Int} (hvalid : d.validate = .ok ()) (hc : IsI64 c)
    (hrep : Representable d c) (h : t + stepNs d + lookbackNs d < c) : bucket d t < high d c := by
  have hpos := stepNs_pos hvalid
  have hbegin : bucket d t ≤ t := floorTo_le hpos t
  have hdvd : stepNs d ∣ bucket d t + stepNs d := Int.dvd_add (dvd_floorTo t) (Int.dvd_refl _)
  have hend : bucket d t + stepNs d ≤ floorTo (stepNs d) (c - lookbackNs d) :=
    (le_floorTo_iff hpos hdvd _).mpr (by omega)
  rw [high_eq hvalid hc hrep]
  omega

/-- The window of a later pass ends no earlier. -/
theorem high_mono {d : RollupDef} {c now : Int} (hvalid : d.validate = .ok ()) (hc : IsI64 c)
    (hnow : IsI64 now) (hrep : Representable d c) (hrep' : Representable d now) (hle : c ≤ now) :
    high d c ≤ high d now := by
  have hpos := stepNs_pos hvalid
  rw [high_eq hvalid hc hrep, high_eq hvalid hnow hrep']
  refine (le_floorTo_iff hpos (dvd_floorTo _) _).mpr ?_
  have hfloor := floorTo_le hpos (c - lookbackNs d)
  omega

namespace Upkeep

variable {ι : Type} [DecidableEq ι] {env : ι → Env}

structure Inv (s : Upkeep ι) : Prop where
  outlast : NodesOutlast s.admin
  sealed : ∀ i m, s.admin.nodes i = some m → ∀ d ∈ m.rollups, s.GoneSealed d
  passes : ∀ d c, s.passed d = some c → d.validate = .ok () ∧ IsI64 c ∧ Representable d c

/-- What is active after an action was so before it, or is put into force by it. -/
theorem active_of_step {s t : State ι} {a : Admin.Action ι} (h : Admin.step env s a = some t)
    {i : ι} {m : Memory} (hm : t.nodes i = some m) {d : RollupDef} (hd : d ∈ m.rollups) :
    (∃ old, s.nodes i = some old ∧ d ∈ old.rollups) ∨ d ∈ activated env s a := by
  cases a with
  | call j c put =>
      obtain ⟨old, hold, rfl⟩ := Option.map_eq_some_iff.mp h
      by_cases hi : i = j
      · subst hi
        obtain rfl : (perform old s.docs put c).1 = m := by simpa using hm
        cases c with
        | setRollup e =>
            simp only [perform, setRollup] at hd
            split at hd
            · exact .inl ⟨old, hold, hd⟩
            · rcases mem_putFirst hd with rfl | hmem
              · exact .inr (by simp [activated])
              · exact .inl ⟨old, hold, hmem⟩
        | removeRollup db name => exact .inl ⟨old, hold, List.mem_of_mem_filter hd⟩
        | setRetention db table seconds | removeRetention db table | enableLastCache db table
        | disableLastCache db table => exact .inl ⟨old, hold, hd⟩
        | setConfig key value actor writtenAt =>
            refine .inl ⟨old, hold, ?_⟩
            simp only [perform, setConfig] at hd
            split at hd
            · exact hd
            · cases put <;> exact hd
        | revertConfig key =>
            refine .inl ⟨old, hold, ?_⟩
            simp only [perform, revertConfig] at hd
            split at hd
            · exact hd
            · exact hd
            · cases put <;> exact hd
      · exact .inl ⟨m, by simpa [hi] using hm, hd⟩
  | reload j =>
      obtain ⟨old, hold, rfl⟩ := Option.map_eq_some_iff.mp h
      by_cases hi : i = j
      · subst hi
        obtain rfl : reloadRollups old s.docs = m := by simpa [State.setNode] using hm
        cases hdocs : s.docs.rollups with
        | none => exact .inl ⟨old, hold, by simpa [reloadRollups, hdocs] using hd⟩
        | some defs => exact .inr (by simpa [activated, reloadRollups, hdocs] using hd)
      · exact .inl ⟨m, by simpa [State.setNode, hi] using hm, hd⟩
  | boot j =>
      obtain rfl := Option.some.inj h
      by_cases hi : i = j
      · subst hi
        obtain rfl : Admin.boot (env i) s.docs = m := by simpa [State.setNode] using hm
        exact .inr hd
      · exact .inl ⟨m, by simpa [State.setNode, hi] using hm, hd⟩

theorem Inv.step {s t : Upkeep ι} {a : Action ι} (h : Inv s) (hok : Careful env s a)
    (hstep : Upkeep.step env s a = some t) : Inv t := by
  cases a with
  | admin a =>
      obtain ⟨admin, hadmin, rfl⟩ := Option.map_eq_some_iff.mp hstep
      refine ⟨h.outlast.step hok.1 hadmin, ?_, h.passes⟩
      intro i m hm d hd
      rcases active_of_step hadmin hm hd with ⟨old, hold, hmem⟩ | hnew
      · exact h.sealed i old hold d hmem
      · exact hok.2 d hnew
  | materializeOne j e now =>
      obtain ⟨hvalid, hrep⟩ := hok
      obtain ⟨m, _, hif⟩ := Option.bind_eq_some_iff.mp hstep
      split at hif
      · next hguard =>
          obtain rfl := Option.some.inj hif
          obtain ⟨_, hnow, hlater⟩ := hguard
          refine ⟨h.outlast, ?_, ?_⟩
          · intro i m hm d hd g hg hkey
            obtain ⟨c, hc, hbehind⟩ := h.sealed i m hm d hd g hg hkey
            by_cases hde : d = e
            · subst hde
              obtain ⟨_, hc64, hcrep⟩ := h.passes d c hc
              have hle : c ≤ now := by
                rw [Option.mem_def.mp hc] at hlater
                simpa using hlater
              exact ⟨now, by simp, hbehind.trans_le (high_mono hvalid hc64 hnow hcrep hrep hle)⟩
            · exact ⟨c, by simpa [hde] using hc, hbehind⟩
          · intro d c hc
            by_cases hde : d = e
            · subst hde
              obtain rfl : now = c := by simpa using hc
              exact ⟨hvalid, hnow, hrep⟩
            · exact h.passes d c (by simpa [hde] using hc)
      · cases hif
  | enforceRetention j now holdings =>
      obtain ⟨node, hnode, hif⟩ := Option.bind_eq_some_iff.mp hstep
      obtain ⟨hfits, hintime⟩ := hok node hnode
      split at hif
      · next hnow =>
          obtain rfl := Option.some.inj hif
          refine ⟨h.outlast, ?_, h.passes⟩
          intro i m hm d hd g hg hkey
          rcases List.mem_append.mp hg with hold | hnew
          · exact h.sealed i m hm d hd g hold hkey
          · obtain ⟨p, hp, holder⟩ := Holdings.older_of_removed hnow hfits hnew
            rw [hkey] at hp
            obtain ⟨c, hc, htime⟩ := hintime i m hm d hd ⟨g, hnew, hkey⟩ p hp
            obtain ⟨hvalid, hc64, hrep⟩ := h.passes d c hc
            exact ⟨c, hc, bucket_lt_high hvalid hc64 hrep (by omega)⟩
      · cases hif

end Upkeep

end Invariant

namespace Upkeep

section Samples

variable {ι : Type} [DecidableEq ι]

instance (s : Upkeep ι) (d : RollupDef) (now b : Int) : Decidable (s.Seals d now b) :=
  inferInstanceAs (Decidable (_ ∧ ∀ c ∈ s.passed d, _))

instance (s : Upkeep ι) (d : RollupDef) : Decidable (s.GoneSealed d) :=
  decidable_of_iff (∀ g ∈ s.gone, g.1 = sourceKey d →
    (s.passed d).any fun c => bucket d g.2 < high d c)
    (by simp [GoneSealed, Option.any_eq_true])

instance (s : Upkeep ι) (policies : List RetentionPolicy) (now : Int) (d : RollupDef) :
    Decidable (s.InTime policies now d) :=
  decidable_of_iff (∀ p ∈ policyOf policies d.db d.source, (s.passed d).any fun c =>
    now - c + stepNs d + lookbackNs d ≤ p.seconds * nanos)
    (by simp [InTime, Option.any_eq_true])

instance [Fintype ι] (env : ι → Env) (s : Upkeep ι) : ∀ a, Decidable (Careful env s a)
  | .admin a => inferInstanceAs (Decidable (Admin.Careful env s.admin a ∧
      ∀ d ∈ activated env s.admin a, s.GoneSealed d))
  | .materializeOne _ d now =>
      inferInstanceAs (Decidable (d.validate = .ok () ∧ Representable d now))
  | .enforceRetention i now holdings => inferInstanceAs (Decidable (∀ m ∈ s.admin.nodes i,
      (∀ p ∈ m.policies, _ ∨ _) ∧ ∀ j, ∀ n ∈ s.admin.nodes j, ∀ d ∈ n.rollups,
        (∃ g ∈ holdings.removed m.policies now, _) → s.InTime m.policies now d))

/-- Hourly buckets that stay open for two hours. -/
def twoHours : RollupDef where
  db := "d"
  name := "r"
  source := "s"
  target := "t"
  intervalSecs := 3600
  lookbackSecs := 7200
  groupBy := []
  aggregations := [⟨.count, "v", "n", none⟩]
  filter := none

/-- Daily buckets that stay open for a day. -/
def oneDay : RollupDef := { twoHours with intervalSecs := 86400, lookbackSecs := 86400 }

def plain : Env := ⟨.default, [], []⟩

/-- Started with a policy shorter than the lookback of a rollup beside it. -/
def inconsistent : Env where
  cfg := { EngineConfig.default with retention := [⟨"*", "s", 3600⟩] }
  pinned := []
  rollups := [twoHours]

def noDocs : Documents := ⟨none, none, none, none⟩

def firstHourFile : FileMeta := ⟨"d", "s", "1970010100", "f", 1, 0, 0, 0⟩

def epochRow : Row := ⟨0, Ingest.tagSet [], [], 0⟩

theorem firstHour_partitioned : Partitioned (fun _ => [epochRow]) [firstHourFile] := by
  intro f hf r hr
  obtain rfl := List.mem_singleton.mp hf
  obtain rfl := List.mem_singleton.mp hr
  exact ⟨by decide, by decide +kernel⟩

/-- One row of the source, of the first hour of 1970. -/
def firstHourRow : Holdings := ⟨[firstHourFile], fun _ => [epochRow], firstHour_partitioned⟩

/-- Some active rollup looks back further than its source is kept. -/
def OutlivesSource (s : Upkeep Bool) (i : Bool) : Prop :=
  ∃ m ∈ s.admin.nodes i, ¬AllOutlast m.policies m.rollups

instance (s : Upkeep Bool) (i : Bool) : Decidable (OutlivesSource s i) :=
  decidable_of_iff ((s.admin.nodes i).any fun m => ¬AllOutlast m.policies m.rollups) (by
    simp [OutlivesSource, Option.any_eq_true])

end Samples

end Upkeep

end TimeLake.Admin
