import Mathlib.Logic.Basic

/-!
Finite runs of a partial step function. A step that returns `none` is not
enabled, and `ok` is the condition under which a step is allowed to be taken:
results about arbitrary runs use `fun _ _ => True`, results about runs that
stay clear of a defect put the condition there.
-/

namespace TimeLake.Library

variable {σ α : Type*} {step : σ → α → Option σ} {ok : σ → α → Prop}

inductive Run (step : σ → α → Option σ) (ok : σ → α → Prop) : σ → List α → σ → Prop where
  | nil (s : σ) : Run step ok s [] s
  | cons {s t u : σ} {a : α} {rest : List α} (hok : ok s a)
      (hstep : step s a = some t) (htail : Run step ok t rest u) :
      Run step ok s (a :: rest) u

/-- A property kept by every allowed step is kept by every run. -/
theorem Run.invariant {P : σ → Prop}
    (hstep : ∀ s a t, P s → ok s a → step s a = some t → P t)
    {s t : σ} {acts : List α} (run : Run step ok s acts t) (hinit : P s) : P t := by
  induction run with
  | nil s => exact hinit
  | cons hok hs _ ih => exact ih (hstep _ _ _ hinit hok hs)

/-- The same for a property of the state and of the actions taken so far. -/
theorem Run.invariant_trace {P : σ → List α → Prop}
    (hstep : ∀ s done a t, P s done → ok s a → step s a = some t → P t (done ++ [a]))
    {s t : σ} {acts : List α} (run : Run step ok s acts t) (hinit : P s []) : P t acts := by
  have hfrom : ∀ done, P s done → P t (done ++ acts) := by
    clear hinit
    induction run with
    | nil s =>
        intro done h
        simpa using h
    | cons hok hs _ ih =>
        intro done h
        simpa using ih _ (hstep _ done _ _ h hok hs)
  exact hfrom [] hinit

theorem Run.snoc {s t u : σ} {acts : List α} {a : α}
    (run : Run step ok s acts t) (hok : ok t a) (hs : step t a = some u) :
    Run step ok s (acts ++ [a]) u := by
  induction run with
  | nil s => exact .cons hok hs (.nil u)
  | cons hok' hs' _ ih => exact .cons hok' hs' (ih hok hs)

theorem Run.append {s t u : σ} {first second : List α}
    (left : Run step ok s first t) (right : Run step ok t second u) :
    Run step ok s (first ++ second) u := by
  induction left with
  | nil s => exact right
  | cons hok hs _ ih => exact .cons hok hs (ih right)

/-- A run under a stronger condition is a run under a weaker one. -/
theorem Run.mono {ok' : σ → α → Prop} (himp : ∀ s a, ok s a → ok' s a)
    {s t : σ} {acts : List α} (run : Run step ok s acts t) :
    Run step ok' s acts t := by
  induction run with
  | nil s => exact .nil s
  | cons hok hs _ ih => exact .cons (himp _ _ hok) hs ih

/-- What one action brings about and every step keeps is there at the end of a run with that
action in it. -/
theorem Run.established {P Q : σ → Prop} {a : α}
    (hstep : ∀ s b t, P s → ok s b → step s b = some t → P t)
    (hkeep : ∀ s b t, P s → ok s b → step s b = some t → Q s → Q t)
    (hbrings : ∀ s t, P s → ok s a → step s a = some t → Q t)
    {s t : σ} {acts : List α} (run : Run step ok s acts t) (hinit : P s) (hmem : a ∈ acts) :
    Q t := by
  have hkept : ∀ {s t : σ} {acts : List α}, Run step ok s acts t → P s → Q s → Q t := by
    intro s t acts run hp hq
    exact (run.invariant (P := fun s => P s ∧ Q s) (fun s b t h hok hs =>
      ⟨hstep s b t h.1 hok hs, hkeep s b t h.1 hok hs h.2⟩) ⟨hp, hq⟩).2
  induction run with
  | nil s => cases hmem
  | cons hok hs tail ih =>
      have hnext := hstep _ _ _ hinit hok hs
      rcases List.mem_cons.mp hmem with rfl | hrest
      · exact hkept tail hnext (hbrings _ _ hinit hok hs)
      · exact ih hnext hrest

/-- The property holds of every state that the actions lead through. -/
def Throughout (step : σ → α → Option σ) (P : σ → Prop) : σ → List α → Prop
  | s, [] => P s
  | s, a :: rest => P s ∧ ∀ t ∈ step s a, Throughout step P t rest

theorem Throughout.head {P : σ → Prop} {s : σ} {acts : List α} (h : Throughout step P s acts) :
    P s := by
  cases acts with
  | nil => exact h
  | cons a rest => exact h.1

theorem Throughout.last {P : σ → Prop} {s t : σ} {acts : List α} (run : Run step ok s acts t)
    (h : Throughout step P s acts) : P t := by
  induction run with
  | nil s => exact h
  | cons _ hs _ ih => exact ih (h.2 _ hs)

/-- A run of allowed steps leads through states with the invariant only. -/
theorem Run.throughout {P Q : σ → Prop}
    (hstep : ∀ s a t, P s → ok s a → step s a = some t → P t) (himp : ∀ s, P s → Q s)
    {s t : σ} {acts : List α} (run : Run step ok s acts t) (hinit : P s) :
    Throughout step Q s acts := by
  induction run with
  | nil s => exact himp s hinit
  | cons hok hs _ ih =>
      refine ⟨himp _ hinit, ?_⟩
      intro t ht
      obtain rfl := Option.some.inj (hs.symm.trans ht)
      exact ih (hstep _ _ _ hinit hok hs)

/-- If a state with the property is only ever reached by an allowed step, a run
through such states is a run of allowed steps. -/
theorem Throughout.run {Q : σ → Prop} {ok' : σ → α → Prop}
    (hstep : ∀ s a t, Q s → step s a = some t → Q t → ok' s a)
    {s t : σ} {acts : List α} (run : Run step ok s acts t) (h : Throughout step Q s acts) :
    Run step ok' s acts t := by
  induction run with
  | nil s => exact .nil s
  | cons _ hs _ ih =>
      have htail := h.2 _ hs
      exact .cons (hstep _ _ _ h.1 hs htail.head) hs (ih htail)

/-- The property holds of every step that the actions take. -/
def Stepwise (step : σ → α → Option σ) (P : σ → α → σ → Prop) : σ → List α → Prop
  | _, [] => True
  | s, a :: rest => ∀ t ∈ step s a, P s a t ∧ Stepwise step P t rest

/-- If the allowed steps are those with the property, the runs through such steps are the
allowed ones. -/
theorem Run.stepwise_iff {P : σ → α → σ → Prop} {ok' : σ → α → Prop}
    (hstep : ∀ s a t, step s a = some t → (P s a t ↔ ok' s a))
    {s t : σ} {acts : List α} (run : Run step ok s acts t) :
    Stepwise step P s acts ↔ Run step ok' s acts t := by
  induction run with
  | nil s => exact ⟨fun _ => .nil s, fun _ => trivial⟩
  | @cons s t u a rest _ hs _ ih =>
      constructor
      · intro h
        obtain ⟨hhead, htail⟩ := h t hs
        exact .cons ((hstep _ _ _ hs).mp hhead) hs (ih.mp htail)
      · intro h t' ht'
        obtain rfl := Option.some.inj (hs.symm.trans ht')
        cases h with
        | cons hok hs' htail =>
            obtain rfl := Option.some.inj (hs.symm.trans hs')
            exact ⟨(hstep _ _ _ hs).mpr hok, ih.mpr htail⟩

/-- Execute a list of actions, checking the condition before each of them. -/
def checkedRun (step : σ → α → Option σ) (ok : σ → α → Prop)
    [∀ s a, Decidable (ok s a)] : σ → List α → Option σ
  | s, [] => some s
  | s, a :: rest =>
      if ok s a then (step s a).bind fun t => checkedRun step ok t rest else none

theorem run_of_checkedRun [∀ s a, Decidable (ok s a)] {s t : σ} {acts : List α}
    (h : checkedRun step ok s acts = some t) : Run step ok s acts t := by
  induction acts generalizing s with
  | nil =>
      obtain rfl := Option.some.inj h
      exact .nil _
  | cons a rest ih =>
      simp only [checkedRun] at h
      split at h
      · next hok =>
          obtain ⟨u, hs, hrest⟩ := Option.bind_eq_some_iff.mp h
          exact .cons hok hs (ih hrest)
      · cases h

theorem Run.checkedRun_eq [∀ s a, Decidable (ok s a)] {s t : σ} {acts : List α}
    (run : Run step ok s acts t) : checkedRun step ok s acts = some t := by
  induction run with
  | nil s => rfl
  | cons hok hs _ ih => rw [checkedRun, if_pos hok, hs, Option.bind_some, ih]

/-- A run found by execution, together with what was observed at its end. -/
theorem exists_run_of_checkedRun (step : σ → α → Option σ) (ok : σ → α → Prop)
    [∀ s a, Decidable (ok s a)] {β : Type*} (s : σ) (acts : List α) (f : σ → β) (v : β)
    (h : (checkedRun step ok s acts).map f = some v) :
    ∃ t, Run step ok s acts t ∧ f t = v := by
  obtain ⟨t, ht, hv⟩ := Option.map_eq_some_iff.mp h
  exact ⟨t, run_of_checkedRun ht, hv⟩

/-- The same with a decidable property of the state at the end. -/
theorem exists_run_with (step : σ → α → Option σ) (ok : σ → α → Prop)
    [∀ s a, Decidable (ok s a)] (s : σ) (acts : List α) (P : σ → Prop) [DecidablePred P]
    (h : (checkedRun step ok s acts).map (fun t => decide (P t)) = some true) :
    ∃ t, Run step ok s acts t ∧ P t := by
  obtain ⟨t, run, ht⟩ := exists_run_of_checkedRun step ok s acts (fun t => decide (P t)) true h
  exact ⟨t, run, of_decide_eq_true ht⟩

end TimeLake.Library
