import TimeLake.Admin.Layers
import TimeLake.Library.Run

/-!
The value in force against the history of the changes. A boot takes the property
map and the pinned keys of its environment and the document of the last change.
Pinning refuses changes of a key; it does not put aside an override that is in
the document already. `resolved` is what the documentation says: a pinned key
has its property value, or the default.
-/

namespace TimeLake.Admin

open TimeLake.Ingest
open TimeLake.Library

section History

/-- A successful `set`: its value, and the property value it was written over. -/
structure Written where
  value : Option String
  property : Option String
  deriving DecidableEq, Repr

/-- Successful changes, the last one first; `none` is a revert. -/
abbrev History := List (String × Option Written)

/-- The last successful `set` that no successful `revert` has followed. -/
def lastSet (history : History) (key : String) : Option Written := (history.lookup key).join

/-- The value of a key, from the history and the present boot. -/
def resolved (property : List (String × String)) (pinned : List String) (history : History)
    (key : String) : Option String :=
  (spec key).map fun s =>
    let base := (property.lookup key).getD s.default
    if pinned.contains key then base
    else match lastSet history key with
      | some w => w.value.getD ""
      | none => base

theorem lastSet_cons (key : String) (w : Option Written) (history : History) (other : String) :
    lastSet ((key, w) :: history) other = if other = key then w else lastSet history other := by
  unfold lastSet
  rw [lookup_cons_eq_ite]
  split <;> rfl

end History

section Machine

structure ConfigState where
  doc : SettingsDoc
  layered : Option Layered
  history : History
  deriving DecidableEq

inductive ConfigAction where
  | boot (property : List (String × String)) (pinned : List String)
  | set (key : String) (value : Option String) (actor writtenAt : String)
  | revert (key : String)

/-- A refused change changes nothing, and a successful one is persisted. -/
def resolveStep (s : ConfigState) : ConfigAction → Option ConfigState
  | .boot property pinned => some { s with layered := some (.load property pinned s.doc) }
  | .set key value actor writtenAt => s.layered.map fun l =>
      match l.set key value actor writtenAt with
      | .ok l' => ⟨l'.toDoc, some l',
          (key, some ⟨value, l.property.lookup key⟩) :: s.history⟩
      | .error _ => s
  | .revert key => s.layered.map fun l =>
      match l.revert key with
      | .ok (_, l') => ⟨l'.toDoc, some l', (key, none) :: s.history⟩
      | .error _ => s

/-- No boot pins a key that has an override in the document it loads. -/
def PinsFree (s : ConfigState) : ConfigAction → Prop
  | .boot _ pinned => ∀ key ∈ pinned, s.doc.settings.lookup key = none
  | _ => True

instance (s : ConfigState) : DecidablePred (PinsFree s)
  | .boot _ _ => inferInstanceAs (Decidable (∀ key ∈ _, _))
  | .set _ _ _ _ => .isTrue trivial
  | .revert _ => .isTrue trivial

end Machine

section Invariant

/-- What a `set` records of itself. -/
def StoredOverride.record (o : StoredOverride) : Written := ⟨o.value, o.propertyAtWrite⟩

structure Tracks (s : ConfigState) : Prop where
  sorted : Increasing s.doc.settings
  same : ∀ key, (s.doc.settings.lookup key).map StoredOverride.record = lastSet s.history key
  accepted : ∀ key w, lastSet s.history key = some w →
    ∃ sp, spec key = some sp ∧ sp.kind.check (w.value.getD "") = .ok ()
  running : ∀ l, s.layered = some l → l.overrides = s.doc.settings ∧
    ∀ key ∈ l.pinned, l.overrides.lookup key = none

/-- An accepted value, or an explicit none, passes the check as a text. -/
theorem check_of_checkValue {s : Spec} {key : String} {value : Option String}
    (h : Layered.checkValue s key value = .ok ()) : s.kind.check (value.getD "") = .ok () := by
  cases value with
  | none =>
      simp only [Layered.checkValue] at h
      split at h
      · next hnone =>
          cases hkind : s.kind with
          | optUint min max => simp [Kind.check]
          | _ => simp [hkind, Kind.allowsExplicitNone] at hnone
      · cases h
  | some v =>
      simp only [Layered.checkValue] at h
      cases hc : s.kind.check v with
      | ok u => exact hc
      | error e => simp [hc, Except.mapError] at h

theorem Tracks.set {s : ConfigState} (h : Tracks s) {l l' : Layered} (hl : s.layered = some l)
    {key : String} {value : Option String} {actor writtenAt : String}
    (hset : l.set key value actor writtenAt = .ok l') :
    Tracks ⟨l'.toDoc, some l', (key, some ⟨value, l.property.lookup key⟩) :: s.history⟩ := by
  obtain ⟨hoverrides, hpinned⟩ := h.running l hl
  obtain ⟨⟨sp, hsp, hcheck⟩, hfree, heq, _⟩ := Layered.set_ok hset
  have hlookup := Layered.lookup_set hset
  have hpin : l'.pinned = l.pinned := by rw [heq]
  refine ⟨?_, fun other => ?_, fun other w hw => ?_, ?_⟩
  · change Increasing l'.overrides
    rw [heq]
    exact (hoverrides ▸ h.sorted).insertPair _ _
  · change (l'.overrides.lookup other).map _ = _
    rw [hlookup, lastSet_cons]
    split
    · rfl
    · rw [hoverrides]
      exact h.same other
  · rw [lastSet_cons] at hw
    split at hw
    · next hkey =>
        subst hkey
        obtain rfl := Option.some.inj hw
        exact ⟨sp, hsp, check_of_checkValue hcheck⟩
    · exact h.accepted other w hw
  · intro q hq
    obtain rfl := Option.some.inj hq
    refine ⟨rfl, fun other hother => ?_⟩
    rw [hpin] at hother
    rw [hlookup, if_neg, hpinned other hother]
    rintro rfl
    simp [List.contains_eq_mem, hother] at hfree

theorem Tracks.revert {s : ConfigState} (h : Tracks s) {l l' : Layered} (hl : s.layered = some l)
    {key : String} {removed : Bool} (hrevert : l.revert key = .ok (removed, l')) :
    Tracks ⟨l'.toDoc, some l', (key, none) :: s.history⟩ := by
  obtain ⟨hoverrides, hpinned⟩ := h.running l hl
  obtain ⟨_, _, _, hpin, heq⟩ := Layered.revert_ok hrevert
  have hlookup := Layered.lookup_revert hrevert
  refine ⟨?_, fun other => ?_, fun other w hw => ?_, ?_⟩
  · change Increasing l'.overrides
    rw [heq]
    exact (hoverrides ▸ h.sorted).sublist List.filter_sublist
  · change (l'.overrides.lookup other).map _ = _
    rw [hlookup, lastSet_cons]
    split
    · rfl
    · rw [hoverrides]
      exact h.same other
  · rw [lastSet_cons] at hw
    split at hw
    · cases hw
    · exact h.accepted other w hw
  · intro q hq
    obtain rfl := Option.some.inj hq
    refine ⟨rfl, fun other hother => ?_⟩
    rw [hlookup]
    split
    · rfl
    · exact hpinned other (hpin ▸ hother)

theorem Tracks.step {s t : ConfigState} {a : ConfigAction} (h : Tracks s) (hok : PinsFree s a)
    (hstep : resolveStep s a = some t) : Tracks t := by
  cases a with
  | boot property pinned =>
      obtain rfl := Option.some.inj hstep
      refine ⟨h.sorted, h.same, h.accepted, fun l hl => ?_⟩
      obtain rfl := Option.some.inj hl
      exact ⟨rfl, hok⟩
  | set key value actor writtenAt =>
      obtain ⟨l, hl, rfl⟩ := Option.map_eq_some_iff.mp hstep
      split
      · next l' hset => exact h.set hl hset
      · exact h
  | revert key =>
      obtain ⟨l, hl, rfl⟩ := Option.map_eq_some_iff.mp hstep
      split
      · next l' hrevert => exact h.revert hl hrevert
      · exact h

theorem Tracks.effective {s : ConfigState} (h : Tracks s) {l : Layered} (hl : s.layered = some l)
    (key : String) : l.effective key = resolved l.property l.pinned s.history key := by
  obtain ⟨hoverrides, hpinned⟩ := h.running l hl
  have hsame := h.same key
  rw [Layered.effective_eq, resolved]
  refine congrArg (fun f => (spec key).map f) (funext fun sp => ?_)
  dsimp only
  by_cases hpin : l.pinned.contains key = true
  · rw [if_pos hpin, hpinned key (by simpa [List.contains_eq_mem] using hpin)]
  · rw [if_neg hpin, ← hsame, ← hoverrides]
    cases l.overrides.lookup key <;> rfl

theorem Tracks.divergent {s : ConfigState} (h : Tracks s) {l : Layered}
    (hl : s.layered = some l) (key : String) :
    key ∈ l.divergent ↔ key ∉ l.pinned ∧ ∃ w v, lastSet s.history key = some w ∧
      w.property = some v ∧ l.property.lookup key ≠ some v := by
  obtain ⟨hoverrides, hpinned⟩ := h.running l hl
  rw [Layered.mem_divergent (hoverrides ▸ h.sorted)]
  have hsame := h.same key
  rw [← hoverrides] at hsame
  constructor
  · rintro ⟨o, v, hlookup, hv, hne⟩
    refine ⟨fun hpin => ?_, o.record, v, ?_, hv, hne⟩
    · rw [hpinned key hpin] at hlookup
      cases hlookup
    · rw [← hsame, hlookup]
      rfl
  · rintro ⟨_, w, v, hw, hv, hne⟩
    rw [hw] at hsame
    obtain ⟨o, ho, rfl⟩ := Option.map_eq_some_iff.mp hsame
    exact ⟨o, v, ho, hv, hne⟩

end Invariant

/-- In a run where no boot pins a key that has an override: the value in force is
the one the history gives, `divergent` lists the keys with an override in force
that was written over another property value, and `materialize` makes of the
value of such an override exactly what it says. -/
theorem config_follows_history {acts : List ConfigAction} {s : ConfigState}
    (hrun : Run resolveStep PinsFree ⟨.empty, none, []⟩ acts s) {l : Layered}
    (hl : s.layered = some l) :
    (∀ key, l.effective key = resolved l.property l.pinned s.history key) ∧
      (∀ key, key ∈ l.divergent ↔ key ∉ l.pinned ∧ ∃ w v, lastSet s.history key = some w ∧
        w.property = some v ∧ l.property.lookup key ≠ some v) ∧
      ∀ key w, key ∉ l.pinned → lastSet s.history key = some w →
        ∃ sp, spec key = some sp ∧ (sp.kind.meaning (w.value.getD "")).isSome ∧
          ∀ retention, (materialize l retention).field key = sp.kind.meaning (w.value.getD "") := by
  have hinit : Tracks ⟨.empty, none, []⟩ :=
    ⟨List.Pairwise.nil, fun _ => rfl, by simp [lastSet], by simp⟩
  have htracks := hrun.invariant (fun _ _ _ h hok hstep => Tracks.step h hok hstep) hinit
  refine ⟨htracks.effective hl, htracks.divergent hl, fun key w hfree hw => ?_⟩
  obtain ⟨sp, hsp, hcheck⟩ := htracks.accepted key w hw
  have hmem := List.mem_of_find?_eq_some hsp
  have hkey : sp.key = key := by simpa using List.find?_some hsp
  subst hkey
  have hvalue : l.effective sp.key = some (w.value.getD "") := by
    rw [htracks.effective hl, resolved, hsp, Option.map_some, if_neg, hw]
    simpa [List.contains_eq_mem] using hfree
  exact ⟨sp, hsp, (field_materialize [] hmem hvalue hcheck).2, fun retention =>
    (field_materialize retention hmem hvalue hcheck).1⟩

section Runs

/-- An override is written, the property changes, and another key is pinned. -/
def overriddenRun : List ConfigAction :=
  [.boot [("flush_rows", "50000")] [], .set "flush_rows" (some "80000") "admin" "t1",
    .set "l0_row_group_rows" none "admin" "t2",
    .boot [("flush_rows", "60000"), ("gc_grace_secs", "1200")] ["gc_grace_secs"]]

theorem overriddenRun_resolves : ∃ s l,
    Run resolveStep PinsFree ⟨.empty, none, []⟩ overriddenRun s ∧ s.layered = some l ∧
      l.effective "flush_rows" = some "80000" ∧ "flush_rows" ∈ l.divergent ∧
      (∀ key, l.effective key = resolved l.property l.pinned s.history key) := by
  obtain ⟨s, run, hlayered⟩ := exists_run_with resolveStep PinsFree ⟨.empty, none, []⟩
    overriddenRun (fun s => s.layered.any fun l => l.effective "flush_rows" = some "80000" ∧
      "flush_rows" ∈ l.divergent) (by decide +kernel)
  obtain ⟨l, hl, hvalue⟩ := Option.any_eq_true .. |>.mp hlayered
  obtain ⟨hvalue, hdivergent⟩ := of_decide_eq_true hvalue
  exact ⟨s, l, run, hl, hvalue, hdivergent, (config_follows_history run hl).1⟩

/-- A key is pinned in a boot that finds an override of it in the document. -/
def pinnedLater : List ConfigAction :=
  [.boot [("gc_grace_secs", "900")] [], .set "gc_grace_secs" (some "2000") "admin" "t1",
    .boot [("gc_grace_secs", "900")] ["gc_grace_secs"]]

theorem pinnedLater_ignored : ∃ s,
    Run resolveStep (fun _ _ => True) ⟨.empty, none, []⟩ pinnedLater s ∧
      s.layered.map (fun l => (l.effective "gc_grace_secs",
        resolved l.property l.pinned s.history "gc_grace_secs")) =
        some (some "2000", some "900") :=
  exists_run_with _ _ _ _ _ (by decide +kernel)

end Runs

end TimeLake.Admin
