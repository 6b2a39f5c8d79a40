import TimeLake.Admission.Slots

/-!
What the callers get. A statement that runs alone is a function of its request and of the
row cap; among any number of others it ends as it would alone under a cap that was in force,
unless its deadline fires. So an answer is the whole stream of the plan and never a part of
it, a refusal for its size is one the stream deserves, and no plan is executed that does
anything but read.
-/

namespace TimeLake.Admission

open TimeLake.Library TimeLake.Library.AssocMap
open TimeLake.Selfmon (QueryOutcome)

section Guard

/-- The guard refuses with the first node, from the top, that does something to the world. -/
def verdict : Option String → Except String Unit
  | some op => .error (notPermitted op)
  | none => .ok ()

mutual

theorem ensureReadOnly_eq :
    ∀ plan : LogicalPlan, ensureReadOnly plan = verdict (plan.nodes.findSome? effectOf)
  | .node kind inputs => by
      rw [ensureReadOnly, LogicalPlan.nodes, List.findSome?_cons]
      cases effectOf (.node kind inputs) with
      | some op => rfl
      | none => exact ensureInputs_eq inputs
  | .explain plan => by
      rw [ensureReadOnly, LogicalPlan.nodes, List.findSome?_cons]
      exact ensureReadOnly_eq plan
  | .analyze input => by
      rw [ensureReadOnly, LogicalPlan.nodes, List.findSome?_cons]
      exact ensureReadOnly_eq input

theorem ensureInputs_eq :
    ∀ inputs : List LogicalPlan,
      ensureInputs inputs = verdict ((inputNodes inputs).findSome? effectOf)
  | [] => rfl
  | child :: rest => by
      rw [ensureInputs, inputNodes, List.findSome?_append, ensureReadOnly_eq child]
      cases child.nodes.findSome? effectOf with
      | some op => rfl
      | none => exact ensureInputs_eq rest

end

/-- A plan with no node that does anything, wherever it stands. -/
def LogicalPlan.ReadOnly (plan : LogicalPlan) : Prop := ∀ n ∈ plan.nodes, effectOf n = none

theorem ensureReadOnly_ok {plan : LogicalPlan} {u : Unit} (h : ensureReadOnly plan = .ok u) :
    plan.ReadOnly := by
  rw [ensureReadOnly_eq] at h
  cases hfirst : plan.nodes.findSome? effectOf with
  | some op =>
      rw [hfirst] at h
      cases h
  | none => exact List.findSome?_eq_none_iff.mp hfirst

theorem ensureReadOnly_error {plan : LogicalPlan} {message : String}
    (h : ensureReadOnly plan = .error message) :
    ∃ op, plan.nodes.findSome? effectOf = some op ∧ message = notPermitted op := by
  rw [ensureReadOnly_eq] at h
  cases hfirst : plan.nodes.findSome? effectOf with
  | some op =>
      rw [hfirst] at h
      cases h
      exact ⟨op, rfl, rfl⟩
  | none =>
      rw [hfirst] at h
      cases h

end Guard

section Alone

variable {β : Type*} (numRows : β → Nat)

def collect (cap : Nat) : List β → Nat → List (Except String β) → Ending β
  | batches, _, [] => .answer batches
  | _, _, .error _ :: _ => .failed "collect"
  | batches, rows, .ok batch :: rest =>
      if cap < rows + numRows batch then .oversized cap (rows + numRows batch)
      else collect cap (batches ++ [batch]) (rows + numRows batch) rest

def afterExecute (cap : Nat) (r : Request β) : Ending β :=
  match r.stream with
  | .error _ => .failed "execute"
  | .ok items => collect numRows cap [] 0 items

def afterPlan (cap : Nat) (r : Request β) : Ending β :=
  match r.execute with
  | some _ => .failed "execute"
  | none => afterExecute numRows cap r

def afterRegister (cap : Nat) (r : Request β) : Ending β :=
  match r.plan with
  | .error _ => .failed "plan"
  | .ok plan =>
      match ensureReadOnly plan with
      | .error message => .refused message
      | .ok _ => afterPlan numRows cap r

/-- A statement on its own, with no deadline. -/
def runSqlEnv (cap : Nat) (r : Request β) : Ending β :=
  match r.register with
  | some _ => .failed "register"
  | none => afterRegister numRows cap r

variable {numRows} {cap : Nat}

theorem rowsOf_cons (batch : β) (batches : List β) :
    rowsOf numRows (batch :: batches) = numRows batch + rowsOf numRows batches := by
  simp [rowsOf]

/-- An answer has every batch of the stream. -/
theorem collect_answer {batches all : List β} {rows : Nat} {rest : List (Except String β)}
    (h : collect numRows cap batches rows rest = .answer all) (hrows : rows ≤ cap) :
    ∃ more, rest = more.map .ok ∧ all = batches ++ more ∧ rows + rowsOf numRows more ≤ cap := by
  induction rest generalizing batches rows with
  | nil =>
      cases h
      exact ⟨[], rfl, (List.append_nil _).symm, hrows⟩
  | cons item rest ih =>
      cases item with
      | error e => cases h
      | ok batch =>
          rw [collect] at h
          split at h
          · cases h
          · next hroom =>
              obtain ⟨more, rfl, rfl, hle⟩ := ih h (by omega)
              refine ⟨batch :: more, rfl, by simp, ?_⟩
              rw [rowsOf_cons]
              omega

/-- A refusal for the size is at the first batch that goes over the cap. -/
theorem collect_oversized {batches : List β} {rows c n : Nat} {rest : List (Except String β)}
    (h : collect numRows cap batches rows rest = .oversized c n) (hrows : rows ≤ cap) :
    c = cap ∧ ∃ more batch tail, rest = more.map .ok ++ .ok batch :: tail ∧
      rows + rowsOf numRows more ≤ cap ∧ n = rows + rowsOf numRows more + numRows batch ∧
      cap < n := by
  induction rest generalizing batches rows with
  | nil => cases h
  | cons item rest ih =>
      cases item with
      | error e => cases h
      | ok batch =>
          rw [collect] at h
          split at h
          · next hover =>
              cases h
              exact ⟨rfl, [], batch, rest, rfl, hrows, rfl, hover⟩
          · next hroom =>
              obtain ⟨hc, more, last, tail, rfl, hle, hn, hover⟩ := ih h (by omega)
              refine ⟨hc, batch :: more, last, tail, rfl, ?_, ?_, hover⟩
              · rw [rowsOf_cons]
                omega
              · rw [rowsOf_cons]
                omega

theorem collect_not_refused {batches : List β} {rows : Nat} {rest : List (Except String β)}
    {message : String} : collect numRows cap batches rows rest ≠ .refused message := by
  induction rest generalizing batches rows with
  | nil => simp [collect]
  | cons item rest ih =>
      cases item with
      | error e => simp [collect]
      | ok batch =>
          rw [collect]
          split
          · simp
          · exact ih

/-- The whole stream, under the cap, of a plan that only reads. -/
theorem runSqlEnv_answer {r : Request β} {all : List β}
    (h : runSqlEnv numRows cap r = .answer all) :
    (∃ plan, r.plan = .ok plan ∧ plan.ReadOnly) ∧ r.stream = .ok (all.map .ok) ∧
      rowsOf numRows all ≤ cap := by
  simp only [runSqlEnv, afterRegister, afterPlan, afterExecute] at h
  split at h
  · cases h
  · split at h
    · cases h
    · next plan hplan =>
        split at h
        · cases h
        · next hguard =>
            split at h
            · cases h
            · split at h
              · cases h
              · next items hstream =>
                  obtain ⟨more, rfl, rfl, hle⟩ := collect_answer h (Nat.zero_le _)
                  refine ⟨⟨plan, hplan, ensureReadOnly_ok hguard⟩, hstream, ?_⟩
                  simpa using hle

theorem runSqlEnv_oversized {r : Request β} {c n : Nat}
    (h : runSqlEnv numRows cap r = .oversized c n) :
    c = cap ∧ ∃ batches batch rest, r.stream = .ok (batches.map .ok ++ .ok batch :: rest) ∧
      rowsOf numRows batches ≤ c ∧ n = rowsOf numRows batches + numRows batch ∧ c < n := by
  simp only [runSqlEnv, afterRegister, afterPlan, afterExecute] at h
  split at h
  · cases h
  · split at h
    · cases h
    · split at h
      · cases h
      · split at h
        · cases h
        · split at h
          · cases h
          · next items hstream =>
              obtain ⟨rfl, batches, batch, rest, rfl, hle, hn, hover⟩ :=
                collect_oversized h (Nat.zero_le _)
              exact ⟨rfl, batches, batch, rest, hstream, by omega, by omega, hover⟩

theorem runSqlEnv_refused {r : Request β} {message : String}
    (h : runSqlEnv numRows cap r = .refused message) :
    ∃ plan op, r.plan = .ok plan ∧ plan.nodes.findSome? effectOf = some op ∧
      message = notPermitted op := by
  simp only [runSqlEnv, afterRegister, afterPlan, afterExecute] at h
  split at h
  · cases h
  · split at h
    · cases h
    · next plan hplan =>
        split at h
        · next hguard =>
            cases h
            obtain ⟨op, hfirst, hmessage⟩ := ensureReadOnly_error hguard
            exact ⟨plan, op, hplan, hfirst, hmessage⟩
        · split at h
          · cases h
          · split at h
            · cases h
            · exact absurd h collect_not_refused

end Alone

section Caps

variable {β : Type*}

theorem mem_caps_append {c : Nat} {done more : List (Action β)} (h : c ∈ caps done) :
    c ∈ caps (done ++ more) := by
  induction done with
  | nil =>
      obtain rfl := List.mem_singleton.mp h
      induction more with
      | nil => exact h
      | cons a more ih =>
          cases a with
          | begin q rows =>
              rw [List.nil_append, caps]
              split
              · exact List.mem_cons_of_mem _ ih
              · exact ih
          | _ => exact ih
  | cons a done ih =>
      cases a with
      | begin q rows =>
          simp only [List.cons_append, caps] at h ⊢
          split
          · next hpos =>
              rw [if_pos hpos] at h
              rcases List.mem_cons.mp h with rfl | h
              · exact List.mem_cons_self
              · exact List.mem_cons_of_mem _ (ih h)
          · next hzero =>
              rw [if_neg hzero] at h
              exact ih h
      | _ => exact ih h

theorem begin_mem_caps {q rows : Nat} {done : List (Action β)} (h : 0 < rows) :
    rows ∈ caps (done ++ [.begin q rows]) := by
  induction done with
  | nil =>
      rw [List.nil_append, caps, if_pos h]
      exact List.mem_cons_self
  | cons a done ih =>
      cases a with
      | begin q rows =>
          rw [List.cons_append, caps]
          split
          · exact List.mem_cons_of_mem _ ih
          · exact ih
      | _ => exact ih

theorem caps_pos {c : Nat} {acts : List (Action β)} (h : c ∈ caps acts) : 0 < c := by
  induction acts with
  | nil =>
      obtain rfl := List.mem_singleton.mp h
      decide
  | cons a rest ih =>
      cases a with
      | begin q rows =>
          rw [caps] at h
          split at h
          · next hpos =>
              rcases List.mem_cons.mp h with rfl | h
              · exact hpos
              · exact ih h
          · exact ih h
      | _ => exact ih h

end Caps

section Runs

variable {β : Type*} {numRows : β → Nat} {s t : State β} {q : Nat} {query : Query β}
variable {cs cs' : List Nat} {r : Request β}

/-- An ending is that of the statement alone under a cap that was in force, or the deadline. -/
def EndsAsAlone (numRows : β → Nat) (cs : List Nat) (r : Request β) (ending : Ending β) : Prop :=
  ending = .timedOut ∨ ∃ cap ∈ cs, ending = runSqlEnv numRows cap r

/-- What is left to do from a phase is what a statement alone has left to do. -/
def Phase.Sound (numRows : β → Nat) (cs : List Nat) (r : Request β) : Phase β → Prop
  | .arrived | .waiting _ | .admitted _ => True
  | .registered _ => ∀ cap, runSqlEnv numRows cap r = afterRegister numRows cap r
  | .planned _ =>
      (∀ plan ∈ r.plan.toOption, plan.ReadOnly) ∧
        ∀ cap, runSqlEnv numRows cap r = afterPlan numRows cap r
  | .executed _ cap => cap ∈ cs ∧ runSqlEnv numRows cap r = afterExecute numRows cap r
  | .streaming _ cap batches rows rest =>
      cap ∈ cs ∧ runSqlEnv numRows cap r = collect numRows cap batches rows rest
  | .ended _ ending | .recorded _ ending | .returned _ ending => EndsAsAlone numRows cs r ending
  | .turned message => r.assembly = some message

def Reply.Sound (numRows : β → Nat) (cs : List Nat) (r : Request β) : Reply β → Prop
  | .tooMany => True
  | .notRun message => r.assembly = some message
  | .ran _ ending => EndsAsAlone numRows cs r ending

theorem EndsAsAlone.mono (hcs : ∀ c ∈ cs, c ∈ cs') {ending : Ending β}
    (h : EndsAsAlone numRows cs r ending) : EndsAsAlone numRows cs' r ending := by
  rcases h with h | ⟨cap, hcap, h⟩
  · exact .inl h
  · exact .inr ⟨cap, hcs cap hcap, h⟩

theorem Phase.Sound.mono (hcs : ∀ c ∈ cs, c ∈ cs') {p : Phase β} (h : p.Sound numRows cs r) :
    p.Sound numRows cs' r := by
  cases p with
  | executed ref cap => exact ⟨hcs cap h.1, h.2⟩
  | streaming ref cap batches rows rest => exact ⟨hcs cap h.1, h.2⟩
  | ended ref ending => exact EndsAsAlone.mono hcs h
  | recorded ref ending => exact EndsAsAlone.mono hcs h
  | returned ref ending => exact EndsAsAlone.mono hcs h
  | _ => exact h

theorem Reply.Sound.mono (hcs : ∀ c ∈ cs, c ∈ cs') {reply : Reply β}
    (h : reply.Sound numRows cs r) : reply.Sound numRows cs' r := by
  cases reply with
  | ran ref ending => exact EndsAsAlone.mono hcs h
  | _ => exact h

/-- Each stage leaves to do what the statement alone has left. -/
theorem work_sound {cap : Nat} (hcap : cap ∈ cs) {p p' : Phase β} (h : p.Sound numRows cs r)
    (hwork : work numRows cap r p = some p') : p'.Sound numRows cs r := by
  unfold work at hwork
  split at hwork
  · split at hwork
    · next hregister =>
        cases hwork
        exact .inr ⟨cap, hcap, by rw [runSqlEnv, hregister]⟩
    · next hregister =>
        cases hwork
        intro c
        rw [runSqlEnv, hregister]
  · split at hwork
    · next hplan =>
        cases hwork
        exact .inr ⟨cap, hcap, by rw [h cap, afterRegister, hplan]⟩
    · next plan hplan =>
        split at hwork
        · next hguard =>
            cases hwork
            refine .inr ⟨cap, hcap, ?_⟩
            rw [h cap, afterRegister, hplan]
            simp only [hguard]
        · next hguard =>
            cases hwork
            refine ⟨?_, ?_⟩
            · intro plan' hplan'
              rw [hplan] at hplan'
              obtain rfl := Option.some.inj hplan'
              exact ensureReadOnly_ok hguard
            · intro c
              rw [h c, afterRegister, hplan]
              simp only [hguard]
  · split at hwork
    · next hexecute =>
        cases hwork
        exact .inr ⟨cap, hcap, by rw [h.2 cap, afterPlan, hexecute]⟩
    · next hexecute =>
        cases hwork
        exact ⟨hcap, by rw [h.2 cap, afterPlan, hexecute]⟩
  · split at hwork
    · next hstream =>
        cases hwork
        exact .inr ⟨_, h.1, by rw [h.2, afterExecute, hstream]⟩
    · next items hstream =>
        cases hwork
        exact ⟨h.1, by rw [h.2, afterExecute, hstream]⟩
  · cases hwork
    exact .inr ⟨_, h.1, h.2.symm⟩
  · cases hwork
    exact .inr ⟨_, h.1, h.2.symm⟩
  · obtain ⟨hmem, halone⟩ := h
    rw [collect] at halone
    split at hwork
    · next hover =>
        cases hwork
        rw [if_pos hover] at halone
        exact .inr ⟨_, hmem, halone.symm⟩
    · next hroom =>
        cases hwork
        rw [if_neg hroom] at halone
        exact ⟨hmem, halone⟩
  · cases hwork

/-- The invariant of a run: every live request is on the way of a statement alone, and what was
executed and what was answered was right. -/
structure Sound (numRows : β → Nat) (s : State β) (done : List (Action β)) : Prop where
  cap : s.maxResultRows ∈ caps done
  live : ∀ q query, s.queries.lookup q = some query →
    query.phase.Sound numRows (caps done) query.request
  plans : ∀ plan ∈ s.ranPlans, plan.ReadOnly
  delivered : ∀ p ∈ s.delivered, p.2.Sound numRows (caps done) p.1

variable {done : List (Action β)} {s' : State β}

theorem sound_start (cap maxConcurrent : Nat) : Sound numRows (start cap maxConcurrent) [] where
  cap := List.mem_singleton.mpr rfl
  live := by
    intro q query hq
    cases hq
  plans := by
    intro plan hplan
    cases hplan
  delivered := by
    intro p hp
    cases hp

theorem Sound.later (h : Sound numRows s done) (a : Action β) : Sound numRows s (done ++ [a]) where
  cap := mem_caps_append h.cap
  live := fun q query hq => (h.live q query hq).mono fun _ => mem_caps_append
  plans := h.plans
  delivered := fun p hp => (h.delivered p hp).mono fun _ => mem_caps_append

theorem Sound.put (h : Sound numRows s done) (hqueries : s'.queries = s.queries)
    (hcap : s'.maxResultRows ∈ caps done) (hplans : ∀ plan ∈ s'.ranPlans, plan.ReadOnly)
    (hdelivered : s'.delivered = s.delivered) {p : Phase β}
    (hp : p.Sound numRows (caps done) query.request) : Sound numRows (s'.put q query p) done where
  cap := hcap
  live := by
    intro j other hj
    rw [State.put, hqueries] at hj
    rcases of_lookup_insert hj with ⟨-, rfl⟩ | ⟨-, hother⟩
    · exact hp
    · exact h.live j other hother
  plans := hplans
  delivered := by
    intro pair hpair
    rw [State.put, hdelivered] at hpair
    exact h.delivered pair hpair

theorem Sound.drop (h : Sound numRows s done) : Sound numRows (s.drop q query) done := by
  obtain ⟨-, hcap, hplans, hdelivered, -, -⟩ := giveBack_rest s query.phase
  refine ⟨?_, ?_, ?_, ?_⟩
  · rw [State.drop, hcap]
    exact h.cap
  · intro j other hj
    exact h.live j other (of_lookup_erase hj).2
  · rw [State.drop, hplans]
    exact h.plans
  · rw [State.drop, hdelivered]
    exact h.delivered

theorem Sound.leave (h : Sound numRows s done) {reply : Reply β}
    (hreply : reply.Sound numRows (caps done) query.request) :
    Sound numRows (s.leave q query reply) done := by
  have hdrop : Sound numRows (s.drop q query) done := h.drop
  refine ⟨hdrop.cap, hdrop.live, hdrop.plans, ?_⟩
  intro pair hpair
  rcases List.mem_append.mp hpair with hold | hnew
  · exact h.delivered pair hold
  · obtain rfl := List.mem_singleton.mp hnew
    exact hreply

theorem ranPlan_readOnly {p : Phase β} {plan : LogicalPlan} (h : p.Sound numRows cs r)
    (hplan : plan ∈ ranPlan r p) : plan.ReadOnly := by
  cases p with
  | planned ref => exact h.1 plan (Option.mem_toList.mp hplan)
  | _ => cases hplan

theorem advance_sound (h : Sound numRows s done) (hq : s.queries.lookup q = some query)
    (hstep : advance numRows s q query = some t) : Sound numRows t done := by
  have hlive := h.live q query hq
  unfold advance at hstep
  split at hstep
  · split at hstep
    · cases hstep
    · cases hstep
      refine h.put ?_ ?_ ?_ ?_ ?_
      · rfl
      · exact h.cap
      · exact h.plans
      · rfl
      · trivial
  · next ref ending hphase =>
      rw [hphase] at hlive
      cases hstep
      refine h.put ?_ ?_ ?_ ?_ ?_
      · rfl
      · exact h.cap
      · exact h.plans
      · rfl
      · exact hlive
  · next ref ending hphase =>
      rw [hphase] at hlive
      obtain ⟨hqueries, hcap, hplans, hdelivered, -, -⟩ := giveBack_rest s query.phase
      cases hstep
      refine h.put hqueries ?_ ?_ hdelivered hlive
      · rw [hcap]
        exact h.cap
      · rw [hplans]
        exact h.plans
  · next ref ending hphase =>
      rw [hphase] at hlive
      cases hstep
      exact h.leave hlive
  · next message hphase =>
      rw [hphase] at hlive
      cases hstep
      exact h.leave hlive
  · split at hstep
    · cases hstep
    · next p' hwork =>
        cases hstep
        refine h.put ?_ ?_ ?_ ?_ ?_
        · rfl
        · exact h.cap
        · intro plan hplan
          rcases List.mem_append.mp hplan with hold | hnew
          · exact h.plans plan hold
          · exact ranPlan_readOnly hlive hnew
        · rfl
        · exact work_sound h.cap hlive hwork

theorem step_sound (h : Sound numRows s done) {a : Action β} (hstep : step numRows s a = some t) :
    Sound numRows t (done ++ [a]) := by
  have hlater := h.later a
  cases a with
  | arrive q r =>
      rw [step, arrive] at hstep
      split at hstep
      · cases hstep
      · split at hstep
        · cases hstep
          refine hlater.put ?_ ?_ ?_ ?_ ?_
          · rfl
          · exact hlater.cap
          · exact hlater.plans
          · rfl
          · trivial
        · cases hstep
          refine ⟨hlater.cap, hlater.live, hlater.plans, ?_⟩
          intro pair hpair
          rcases List.mem_append.mp hpair with hold | hnew
          · exact hlater.delivered pair hold
          · obtain rfl := List.mem_singleton.mp hnew
            trivial
  | begin q rows =>
      obtain ⟨query, hq, hstep⟩ := Option.bind_eq_some_iff.mp hstep
      unfold begin at hstep
      split at hstep
      · split at hstep
        · next message hassembly =>
            cases hstep
            refine hlater.put ?_ ?_ ?_ ?_ ?_
            · rfl
            · exact hlater.cap
            · exact hlater.plans
            · rfl
            · exact hassembly
        · cases hstep
          rw [State.setMaxResultRows]
          split
          · next hpos =>
              refine hlater.put ?_ ?_ ?_ ?_ ?_
              · rfl
              · exact begin_mem_caps hpos
              · exact hlater.plans
              · rfl
              · trivial
          · refine hlater.put ?_ ?_ ?_ ?_ ?_
            · rfl
            · exact hlater.cap
            · exact hlater.plans
            · rfl
            · trivial
      · cases hstep
  | advance q =>
      obtain ⟨query, hq, hstep⟩ := Option.bind_eq_some_iff.mp hstep
      exact advance_sound hlater hq hstep
  | timeout q =>
      obtain ⟨query, hq, hstep⟩ := Option.bind_eq_some_iff.mp hstep
      unfold timeout at hstep
      split at hstep
      · cases hstep
        refine hlater.put ?_ ?_ ?_ ?_ ?_
        · rfl
        · exact hlater.cap
        · exact hlater.plans
        · rfl
        · exact .inl rfl
      · cases hstep
  | cancel q =>
      obtain ⟨query, hq, hstep⟩ := Option.bind_eq_some_iff.mp hstep
      unfold cancel at hstep
      split at hstep
      · cases hstep
        exact hlater.drop
      · cases hstep

theorem run_sound {ok : State β → Action β → Prop} {cap maxConcurrent : Nat}
    {acts : List (Action β)} (run : Run (step numRows) ok (start cap maxConcurrent) acts t) :
    Sound numRows t acts :=
  run.invariant_trace (P := Sound numRows) (fun _ _ _ _ hs _ hstep => step_sound hs hstep)
    (sound_start cap maxConcurrent)

/-- Among any other requests, however the steps fall: an answer is every batch of its
statement's stream and no more rows than a cap that was in force, a refusal for the size is of a
stream that has more rows than that cap, a refusal by the guard names the first node of the plan
that does something, no cap is zero, and only plans that do nothing were ever executed. -/
theorem answers_whole {cap maxConcurrent : Nat} {acts : List (Action β)}
    (run : Run (step numRows) (fun _ _ => True) (start cap maxConcurrent) acts t) :
    (∀ r ref ending, (r, .ran ref ending) ∈ t.delivered →
      (∀ all, ending = .answer all →
        r.stream = .ok (all.map .ok) ∧ ∃ c ∈ caps acts, rowsOf numRows all ≤ c) ∧
      (∀ c n, ending = .oversized c n →
        c ∈ caps acts ∧ ∃ batches batch rest,
          r.stream = .ok (batches.map .ok ++ .ok batch :: rest) ∧ rowsOf numRows batches ≤ c ∧
            n = rowsOf numRows batches + numRows batch ∧ c < n) ∧
      (∀ message, ending = .refused message →
        ∃ plan op, r.plan = .ok plan ∧ plan.nodes.findSome? effectOf = some op ∧
          message = notPermitted op) ∧
      (ending = .timedOut ∨ ∃ c ∈ caps acts, ending = runSqlEnv numRows c r)) ∧
      (∀ c ∈ caps acts, 0 < c) ∧
      ∀ plan ∈ t.ranPlans, ∀ n ∈ plan.nodes, effectOf n = none := by
  have h := run_sound run
  refine ⟨?_, fun _ => caps_pos, h.plans⟩
  intro r ref ending hmem
  have halone : EndsAsAlone numRows (caps acts) r ending := h.delivered _ hmem
  refine ⟨?_, ?_, ?_, halone⟩
  · rintro all rfl
    rcases halone with hdeadline | ⟨c, hc, hrun⟩
    · cases hdeadline
    · obtain ⟨-, hstream, hle⟩ := runSqlEnv_answer hrun.symm
      exact ⟨hstream, c, hc, hle⟩
  · rintro c n rfl
    rcases halone with hdeadline | ⟨c', hc, hrun⟩
    · cases hdeadline
    · obtain ⟨rfl, hstream⟩ := runSqlEnv_oversized hrun.symm
      exact ⟨hc, hstream⟩
  · rintro message rfl
    rcases halone with hdeadline | ⟨c, hc, hrun⟩
    · cases hdeadline
    · exact runSqlEnv_refused hrun.symm

def Reply.batches : Reply β → Option (List β)
  | .ran _ (.answer batches) => some batches
  | _ => none

theorem cappedClient_whole :
    ∃ t : State Nat, Run (step id) (fun _ _ => True) (start 1 2) cappedClient t ∧
      t.delivered.map (·.2.batches) = [none, none, some [2, 3]] ∧
      (∀ r ref all, (r, .ran ref (.answer all)) ∈ t.delivered → r.stream = .ok (all.map .ok)) ∧
      ∀ c ∈ caps cappedClient, 0 < c := by
  obtain ⟨t, run, hreplies⟩ := exists_run_of_checkedRun (step id) (fun _ _ => True) (start 1 2)
    cappedClient (fun t => t.delivered.map (·.2.batches)) [none, none, some [2, 3]] (by decide)
  have h := answers_whole run
  refine ⟨t, run, hreplies, ?_, h.2.1⟩
  intro r ref all hmem
  exact ((h.1 r ref _ hmem).1 all rfl).1

end Runs

end TimeLake.Admission
