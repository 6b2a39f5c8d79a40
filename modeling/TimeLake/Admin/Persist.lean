import TimeLake.Admin.Machine

/-!
Admin calls and their documents. Every call changes the memory first and puts
the document second, so a put that fails leaves a change behind that the
caller was told did not happen, and the next call that puts the same document
makes it durable. What is shown is when exactly a failed call leaves the memory
alone, and that over runs of such calls the memory is what a start would load,
with one stale part: `EngineConfig.retention` is the list as of the last change
to the configuration.
-/

namespace TimeLake.Admin

open TimeLake.Catalog
open TimeLake.Cluster
open TimeLake.Library

variable {ι : Type} [DecidableEq ι]

section Condition

/-- The call is refused before it changes anything, or changes nothing. -/
def Changeless (m : Memory) : Call → Prop
  | .setRetention db table seconds => putPolicy ⟨db, table, seconds⟩ m.policies = m.policies
  | .removeRetention db table => dropPolicy db table m.policies = m.policies
  | .setRollup d => checkRollup m.policies d = .ok () → putRollup d m.rollups = m.rollups
  | .removeRollup db name => dropRollup db name m.rollups = m.rollups
  | .enableLastCache db table => (db, table) ∈ m.lastCache
  | .disableLastCache db table => (db, table) ∉ m.lastCache
  | .setConfig key value actor writtenAt =>
      (m.layered.set key value actor writtenAt).isOk = false
  | .revertConfig key => ∀ l, m.layered.revert key ≠ .ok (true, l)

def Persists (m : Memory) (put : Put) (c : Call) : Prop := put = .stored ∨ Changeless m c

/-- The calls are those of one node, and each of them persists. -/
def Persistent (i : ι) (s : State ι) : Action ι → Prop
  | .call j c put => j = i ∧ ∀ m ∈ s.nodes i, Persists m put c
  | .reload _ | .boot _ => True

end Condition

section Calls

theorem Layered.set_revision {l l' : Layered} {key : String} {value : Option String}
    {actor writtenAt : String} (h : l.set key value actor writtenAt = .ok l') :
    l'.revision = l.revision + 1 ∧ l'.property = l.property ∧ l'.pinned = l.pinned := by
  obtain ⟨s, _, h⟩ := bind_eq_ok.mp h
  split at h
  · cases h
  · obtain ⟨_, _, h⟩ := bind_eq_ok.mp h
    obtain ⟨_, _, h⟩ := bind_eq_ok.mp h
    obtain rfl := Except.ok.inj h
    exact ⟨rfl, rfl, rfl⟩

theorem Layered.revert_revision {l l' : Layered} {key : String}
    (h : l.revert key = .ok (true, l')) :
    l'.revision = l.revision + 1 ∧ l'.property = l.property ∧ l'.pinned = l.pinned := by
  unfold Layered.revert at h
  split at h
  · cases h
  split at h
  · cases h
  split at h
  · obtain ⟨_, rfl⟩ := Prod.mk.inj (Except.ok.inj h)
    exact ⟨rfl, rfl, rfl⟩
  · cases h

variable {m : Memory} {docs : Documents} {put : Put}

theorem failed_iff {P : Prop} :
    (∀ e, put.result = .error e → P) ↔ put = .stored ∨ P := by
  cases put with
  | stored => simp [Put.result]
  | failed landed => simp [Put.result]

/-- The layers of a changed configuration have a new revision, so a failed put
never leaves them as they were. -/
theorem persistConfig_unchanged_iff {l : Layered} (hl : l.revision = m.layered.revision + 1) :
    (∀ e, (persistConfig m docs put l).2.2 = .error e → (persistConfig m docs put l).1 = m) ↔
      put = .stored := by
  cases put with
  | stored => simp [persistConfig, Put.result]
  | failed landed =>
      simp only [persistConfig, Put.result, reduceCtorEq, iff_false, not_forall]
      refine ⟨_, rfl, ?_⟩
      intro heq
      have hrevision := congrArg (fun m : Memory => m.layered.revision) heq
      dsimp only at hrevision
      omega

/-- A failed call leaves the memory as it was exactly when it persists. -/
theorem perform_unchanged_iff (c : Call) :
    (∀ e, (perform m docs put c).2.2 = .error e → (perform m docs put c).1 = m) ↔
      Persists m put c := by
  obtain ⟨policies, rollups, lastCache, layered, cfg⟩ := m
  cases c with
  | setRetention db table seconds =>
      simp [perform, setRetention, persistRetention, failed_iff, Persists, Changeless]
  | removeRetention db table =>
      simp [perform, removeRetention, persistRetention, failed_iff, Persists, Changeless]
  | setRollup d =>
      simp only [perform, setRollup, Persists, Changeless]
      split
      · next hcheck => simp [hcheck]
      · next hcheck => simp [hcheck, persistRollups, failed_iff]
  | removeRollup db name =>
      simp [perform, removeRollup, persistRollups, failed_iff, Persists, Changeless]
  | enableLastCache db table =>
      simp [perform, enableLastCache, persistLastCache, failed_iff, Persists, Changeless]
  | disableLastCache db table =>
      simp [perform, disableLastCache, persistLastCache, failed_iff, Persists, Changeless]
  | setConfig key value actor writtenAt =>
      simp only [perform, setConfig, Persists, Changeless]
      split
      · next hset => simp [hset, Except.isOk, Except.toBool]
      · next l hset =>
          rw [persistConfig_unchanged_iff (Layered.set_revision hset).1]
          simp [hset, Except.isOk, Except.toBool]
  | revertConfig key =>
      simp only [perform, revertConfig, Persists, Changeless]
      split
      · next hrevert => simp [hrevert]
      · next hrevert => simp [hrevert]
      · next l hrevert =>
          rw [persistConfig_unchanged_iff (Layered.revert_revision hrevert).1]
          simp [hrevert]

end Calls

section Restart

/-- The memory with its configuration's copy of the policies brought up to
date. -/
def Memory.refreshed (m : Memory) : Memory :=
  { m with cfg := { m.cfg with retention := m.policies } }

theorem Memory.refreshed_eq (m : Memory) (h : m.cfg.retention = m.policies) : m.refreshed = m := by
  obtain ⟨policies, rollups, lastCache, layered, cfg⟩ := m
  dsimp only at h
  subst h
  rfl

/-- Part by part, what a start would load. -/
structure Restarts (env : Env) (docs : Documents) (m : Memory) : Prop where
  policies : m.policies = (docs.retention.map RetentionDoc.load).getD env.cfg.retention
  rollups : m.rollups = docs.rollups.getD env.rollups
  lastCache : m.lastCache = docs.lastCache.getD ∅
  layered : m.layered = .load (configProperty env.cfg) env.pinned (docs.settings.getD .empty)
  cfg : { m.cfg with retention := m.policies } = materialize m.layered m.policies

variable {env : Env} {docs : Documents} {m : Memory} {put : Put}

theorem Restarts.refreshed (h : Restarts env docs m) : m.refreshed = boot env docs := by
  obtain ⟨hpolicies, hrollups, hlastCache, hlayered, hcfg⟩ := h
  unfold Memory.refreshed boot
  dsimp only
  rw [hcfg, hlayered, hrollups, hlastCache, hpolicies]

theorem Restarts.boot (env : Env) (docs : Documents) : Restarts env docs (Admin.boot env docs) :=
  ⟨rfl, rfl, rfl, rfl, rfl⟩

theorem Put.map_doc {α β : Type} (put : Put) (load : α → β) (old : Option α) (new : α) :
    (put.doc old new).map load = put.doc (old.map load) (load new) := by
  cases put with
  | stored => rfl
  | failed landed => cases landed <;> rfl

/-- A put that succeeds, or puts what would be loaded anyway. -/
theorem Put.getD_doc {α : Type} {put : Put} {old : Option α} {new seed : α}
    (h : put = .stored ∨ new = old.getD seed) : new = (put.doc old new).getD seed := by
  cases put with
  | stored => rfl
  | failed landed =>
      cases landed with
      | true => rfl
      | false => exact h.resolve_left (by simp)

theorem Restarts.persistRetention (h : Restarts env docs m) {policies : List RetentionPolicy}
    (hput : put = .stored ∨ policies = m.policies) :
    Restarts env (Admin.persistRetention m docs put policies).2.1
      (Admin.persistRetention m docs put policies).1 := by
  refine ⟨?_, h.rollups, h.lastCache, h.layered, ?_⟩
  · simp only [Admin.persistRetention, Put.map_doc]
    exact Put.getD_doc (hput.imp id fun heq => heq.trans h.policies)
  · exact congrArg (fun c : EngineConfig => { c with retention := policies }) h.cfg

theorem Restarts.persistRollups (h : Restarts env docs m) {rollups : List RollupDef}
    (hput : put = .stored ∨ rollups = m.rollups) :
    Restarts env (Admin.persistRollups m docs put rollups).2.1
      (Admin.persistRollups m docs put rollups).1 :=
  ⟨h.policies, Put.getD_doc (hput.imp id fun heq => heq.trans h.rollups), h.lastCache, h.layered,
    h.cfg⟩

theorem Restarts.persistLastCache (h : Restarts env docs m) {tables : Finset TableKey}
    (hput : put = .stored ∨ tables = m.lastCache) :
    Restarts env (Admin.persistLastCache m docs put tables).2.1
      (Admin.persistLastCache m docs put tables).1 :=
  ⟨h.policies, h.rollups, Put.getD_doc (hput.imp id fun heq => heq.trans h.lastCache), h.layered,
    h.cfg⟩

theorem Restarts.persistConfig (h : Restarts env docs m) {l : Layered}
    (hproperty : l.property = m.layered.property) (hpinned : l.pinned = m.layered.pinned) :
    Restarts env (Admin.persistConfig m docs .stored l).2.1
      (Admin.persistConfig m docs .stored l).1 := by
  refine ⟨h.policies, h.rollups, h.lastCache, ?_, rfl⟩
  have hp : configProperty env.cfg = l.property := by rw [hproperty, h.layered, Layered.load]
  have hq : env.pinned = l.pinned := by rw [hpinned, h.layered, Layered.load]
  rw [hp, hq]
  exact l.load_toDoc.symm

/-- A call that persists leaves memory and documents agreeing. -/
theorem Restarts.perform (h : Restarts env docs m) {c : Call} (hpersists : Persists m put c) :
    Restarts env (Admin.perform m docs put c).2.1 (Admin.perform m docs put c).1 := by
  unfold Persists at hpersists
  cases c with
  | setRetention db table seconds => exact h.persistRetention hpersists
  | removeRetention db table => exact h.persistRetention hpersists
  | setRollup d =>
      simp only [Admin.perform, setRollup]
      split
      · exact h
      · next hcheck => exact h.persistRollups (hpersists.imp id fun hsame => hsame hcheck)
  | removeRollup db name => exact h.persistRollups hpersists
  | enableLastCache db table =>
      exact h.persistLastCache (hpersists.imp id Finset.insert_eq_of_mem)
  | disableLastCache db table =>
      exact h.persistLastCache (hpersists.imp id Finset.erase_eq_of_notMem)
  | setConfig key value actor writtenAt =>
      simp only [Admin.perform, setConfig]
      split
      · exact h
      · next l hset =>
          obtain rfl : put = .stored := by
            refine hpersists.resolve_right fun hok => ?_
            simp [Changeless, hset, Except.isOk, Except.toBool] at hok
          obtain ⟨_, hproperty, hpinned⟩ := Layered.set_revision hset
          exact h.persistConfig hproperty hpinned
  | revertConfig key =>
      simp only [Admin.perform, revertConfig]
      split
      · exact h
      · exact h
      · next l hrevert =>
          obtain rfl : put = .stored := hpersists.resolve_right fun hnot => hnot l hrevert
          obtain ⟨_, hproperty, hpinned⟩ := Layered.revert_revision hrevert
          exact h.persistConfig hproperty hpinned

theorem Restarts.reload (h : Restarts env docs m) : Restarts env docs (reloadRollups m docs) := by
  refine ⟨h.policies, ?_, h.lastCache, h.layered, h.cfg⟩
  rw [reloadRollups, h.rollups]
  cases docs.rollups <;> rfl

end Restart

theorem restarts_run {env : ι → Env} {docs : Documents} {acts : List (Action ι)} {s : State ι}
    {i : ι} (run : Run (step env) (Persistent i) (start docs) acts s) :
    ∀ m, s.nodes i = some m → Restarts (env i) s.docs m := by
  refine run.invariant (P := fun s => ∀ m, s.nodes i = some m → Restarts (env i) s.docs m) ?_
    (fun _ h => (by cases h))
  intro s a t hinv hok hstep m hm
  cases a with
  | call j c put =>
      obtain ⟨old, hold, rfl⟩ := Option.map_eq_some_iff.mp hstep
      obtain ⟨rfl, hpersists⟩ := hok
      obtain rfl : (perform old s.docs put c).1 = m := by simpa using hm
      exact (hinv old hold).perform (hpersists old hold)
  | reload j =>
      obtain ⟨old, hold, rfl⟩ := Option.map_eq_some_iff.mp hstep
      by_cases hi : i = j
      · subst hi
        obtain rfl : reloadRollups old s.docs = m := by simpa [State.setNode] using hm
        exact (hinv old hold).reload
      · exact hinv m (by simpa [State.setNode, hi] using hm)
  | boot j =>
      obtain rfl := Option.some.inj hstep
      by_cases hi : i = j
      · subst hi
        obtain rfl : boot (env i) s.docs = m := by simpa [State.setNode] using hm
        exact .boot _ _
      · exact hinv m (by simpa [State.setNode, hi] using hm)

instance (m : Memory) : ∀ c, Decidable (Changeless m c)
  | .setRetention _ _ _ | .removeRetention _ _ | .removeRollup _ _ =>
      inferInstanceAs (Decidable (_ = _))
  | .setRollup _ => inferInstanceAs (Decidable (_ → _))
  | .enableLastCache _ _ => inferInstanceAs (Decidable (_ ∈ _))
  | .disableLastCache _ _ => inferInstanceAs (Decidable (_ ∉ _))
  | .setConfig _ _ _ _ => inferInstanceAs (Decidable (_ = false))
  | .revertConfig key =>
      match h : m.layered.revert key with
      | .ok (true, l) => .isFalse fun hall => hall l h
      | .ok (false, _) => .isTrue fun l heq => (by rw [h] at heq; cases heq)
      | .error _ => .isTrue fun l heq => (by rw [h] at heq; cases heq)

instance (m : Memory) (put : Put) (c : Call) : Decidable (Persists m put c) :=
  inferInstanceAs (Decidable (_ ∨ _))

instance (i : ι) (s : State ι) : ∀ a, Decidable (Persistent i s a)
  | .call _ _ _ => inferInstanceAs (Decidable (_ ∧ _))
  | .reload _ | .boot _ => .isTrue trivial

/-- Over runs of calls that persist, a node's memory is what a start would load
from the documents, but for the configuration's copy of the policies while that
is behind; and a failed call leaves the memory as it was exactly when it
persists, in any state. -/
theorem memory_matches_store {env : ι → Env} {docs : Documents} {acts : List (Action ι)}
    {s : State ι} {i : ι} (run : Run (step env) (Persistent i) (start docs) acts s) {m : Memory}
    (hm : s.nodes i = some m) :
    m.refreshed = boot (env i) s.docs ∧
      (m.cfg.retention = m.policies → m = boot (env i) s.docs) ∧
      ∀ (any : Memory) (anyDocs : Documents) (put : Put) (c : Call),
        (∀ e, (perform any anyDocs put c).2.2 = .error e → (perform any anyDocs put c).1 = any) ↔
          Persists any put c := by
  have hrefreshed := (restarts_run run m hm).refreshed
  refine ⟨hrefreshed, ?_, fun _ _ _ c => perform_unchanged_iff c⟩
  intro hcopy
  rw [← hrefreshed, m.refreshed_eq hcopy]

section Samples

def started : Env := ⟨.default, [], []⟩

def counting : RollupDef where
  db := "d"
  name := "r"
  source := "s"
  target := "t"
  intervalSecs := 60
  lookbackSecs := 60
  groupBy := []
  aggregations := [⟨.count, "v", "n", none⟩]
  filter := none

def configured : Documents where
  retention := some (.policies [⟨"d", "x", 60⟩])
  rollups := some [counting]
  lastCache := some {("d", "x")}
  settings := some ⟨1, [("flush_age_secs", ⟨some "30", 1, "a", "t", some "60"⟩)]⟩

/-- One change by each of the calls. -/
def changes : List Call :=
  [.setRetention "d" "x" 90, .removeRetention "d" "x",
   .setRollup { counting with lookbackSecs := 120 }, .removeRollup "d" "r",
   .enableLastCache "d" "y", .disableLastCache "d" "x",
   .setConfig "flush_rows" (some "2000") "a" "t", .revertConfig "flush_age_secs"]

end Samples

theorem changes_restart :
    ∃ s, Run (step fun _ : Unit => started) (Persistent ()) (start configured)
        (.boot () :: changes.map fun c => .call () c .stored) s ∧
      ∃ m, s.nodes () = some m ∧ m.refreshed = boot started s.docs ∧
        m.rollups = [] ∧ m.layered.revision = 3 := by
  obtain ⟨s, run, hs⟩ := exists_run_with (step fun _ : Unit => started) (Persistent ())
    (start configured) (.boot () :: changes.map fun c => .call () c .stored)
    (fun s => (s.nodes ()).any fun m => m.rollups = [] ∧ m.layered.revision = 3)
    (by decide +kernel)
  obtain ⟨m, hm, hboth⟩ := (Option.any_eq_true _ _).mp hs
  obtain ⟨hrollups, hrevision⟩ := of_decide_eq_true hboth
  exact ⟨s, run, m, hm, (memory_matches_store run hm).1, hrollups, hrevision⟩

/-- Each of the eight calls, when its put fails, answers with an error and has
changed the memory. A later call makes the refused change durable. And without
any failure, the configuration keeps the policies it was made with. -/
theorem failed_put_keeps_change :
    (∀ c ∈ changes,
      (perform (boot started configured) configured (.failed false) c).2.2 = .error .store ∧
      (perform (boot started configured) configured (.failed false) c).1 ≠
        boot started configured) ∧
    (∃ s, Run (step fun _ : Unit => started) (fun _ _ => True) (start configured)
        [.boot (), .call () (.setRetention "d" "y" 1) (.failed false),
          .call () (.setRetention "d" "z" 90) .stored] s ∧
      s.docs.retention = some (.policies [⟨"d", "x", 60⟩, ⟨"d", "y", 1⟩, ⟨"d", "z", 90⟩])) ∧
    (∃ s, Run (step fun _ : Unit => started) (fun _ _ => True) (start configured)
        [.boot (), .call () (.setRetention "d" "x" 90) .stored] s ∧
      s.nodes () ≠ some (boot started s.docs)) :=
  ⟨by decide +kernel, exists_run_with _ _ _ _ _ (by decide +kernel),
    exists_run_with _ _ _ _ _ (by decide +kernel)⟩

end TimeLake.Admin
