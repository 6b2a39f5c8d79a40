import TimeLake.Admission.Slots
import TimeLake.Library.Json

/-!
What the metrics and the observer know of the queries. A query that got to run is recorded
once, when it is over and before its caller has the answer, under an id of its own; a request
that was dropped before that leaves no record. The counters are those of the records.
-/

namespace TimeLake.Admission

open TimeLake.Library TimeLake.Library.AssocMap
open TimeLake.Library.Json (hexValue)
open TimeLake.Selfmon (QueryOutcome)

section Ids

def hexNumber (text : List Char) : Nat :=
  text.foldl (fun n c => 16 * n + (hexValue c).getD 0) 0

theorem hexNumber_concat (text : List Char) (c : Char) :
    hexNumber (text ++ [c]) = 16 * hexNumber text + (hexValue c).getD 0 := by
  rw [hexNumber, List.foldl_append]
  rfl

theorem hexNumber_toDigits (n : Nat) : hexNumber (Nat.toDigits 16 n) = n := by
  have hdigit : ∀ d < 16, (hexValue d.digitChar).getD 0 = d := by decide
  induction n using Nat.strongRecOn with
  | ind n ih =>
      by_cases hn : n < 16
      · rw [Nat.toDigits_of_lt_base hn]
        exact (Nat.zero_add _).trans (hdigit n hn)
      · rw [Nat.toDigits_of_base_le (by decide) (by omega), hexNumber_concat,
          ih (n / 16) (by omega), hdigit _ (Nat.mod_lt _ (by decide))]
        omega

theorem hexNumber_padHex (n : Nat) : hexNumber (padHex n) = n := by
  have hzeros : ∀ k, (List.replicate k '0').foldl
      (fun n c => 16 * n + (hexValue c).getD 0) 0 = 0 := by
    intro k
    induction k with
    | zero => rfl
    | succ k ih => exact ih
  rw [padHex, hexNumber, List.foldl_append, hzeros]
  exact hexNumber_toDigits n

/-- Until the counter wraps around, two values of it are two ids. -/
theorem refId_inj {m n : Nat} (hm : m < 2 ^ 64) (hn : n < 2 ^ 64) (h : refId m = refId n) :
    m = n := by
  have htext := String.ofList_injective h
  simp only [List.cons.injEq, true_and] at htext
  rw [Nat.mod_eq_of_lt hm, Nat.mod_eq_of_lt hn] at htext
  rw [← hexNumber_padHex m, htext, hexNumber_padHex]

end Ids

section Ledger

variable {β : Type*} {numRows : β → Nat} {s s' t : State β} {q : Nat} {query : Query β}

/-- The id of a query that is not recorded yet. -/
def Phase.pending : Phase β → Option Nat
  | .waiting ref | .admitted ref | .registered ref | .planned ref | .executed ref _
  | .streaming ref .. | .ended ref _ => some ref
  | _ => none

/-- A live query that is recorded already. -/
def Phase.over (r : Request β) : Phase β → Option (Finished β)
  | .recorded ref ending | .returned ref ending => some ⟨ref, r, ending⟩
  | _ => none

def Query.over (query : Query β) : Option (Finished β) := query.phase.over query.request

def asFinished : Request β × Reply β → Option (Finished β)
  | (r, .ran ref ending) => some ⟨ref, r, ending⟩
  | _ => none

/-- The records, and the queries that have got an answer or are about to: the same. Their ids
and those of the queries under way are all different and were all handed out. -/
structure Ledger (s : State β) : Prop where
  answered : s.finished.Perm (s.delivered.filterMap asFinished ++ s.queries.gather Query.over)
  ids : (s.finished.map (·.ref) ++ s.queries.gather (·.phase.pending)).Nodup
  given : ∀ n ∈ s.finished.map (·.ref) ++ s.queries.gather (·.phase.pending), n < s.queryRef

theorem ledger_start (cap maxConcurrent : Nat) : Ledger (start cap maxConcurrent : State β) where
  answered := .refl _
  ids := .nil
  given := by
    intro n hn
    cases hn

/-- The query goes on under the same id, or without one. -/
theorem Ledger.put (h : Ledger s) (hqueries : s'.queries = s.queries)
    (hfinished : s'.finished = s.finished) (hdelivered : s'.delivered = s.delivered)
    (hqueryRef : s'.queryRef = s.queryRef) (hq : s.queries.lookup q = some query) {p : Phase β}
    (hpending : p.pending = query.phase.pending)
    (hover : p.over query.request = query.over) : Ledger (s'.put q query p) := by
  have hids : ((s'.put q query p).queries.gather (·.phase.pending)).Perm
      (s.queries.gather (·.phase.pending)) := by
    rw [State.put, hqueries]
    exact gather_replace (fun query : Query β => query.phase.pending) hq hpending
  have hovers : ((s'.put q query p).queries.gather Query.over).Perm
      (s.queries.gather Query.over) := by
    rw [State.put, hqueries]
    exact gather_replace Query.over hq hover
  have hall := hids.append_left (s.finished.map (·.ref))
  refine ⟨?_, ?_, ?_⟩
  · simp only [State.put, hfinished, hdelivered]
    exact h.answered.trans (hovers.symm.append_left _)
  · simp only [State.put, hfinished]
    exact hall.nodup_iff.mpr h.ids
  · intro n hn
    simp only [State.put, hfinished] at hn
    simp only [State.put, hqueryRef]
    exact h.given n (hall.mem_iff.mp hn)

theorem Ledger.begin (h : Ledger s) (hq : s.queries.lookup q = some query)
    (hphase : query.phase = .arrived) (hqueries : s'.queries = s.queries)
    (hfinished : s'.finished = s.finished) (hdelivered : s'.delivered = s.delivered)
    (hqueryRef : s'.queryRef = s.queryRef + 1) :
    Ledger (s'.put q query (.waiting s.queryRef)) := by
  have hold := gather_erase (fun query : Query β => query.phase.pending) hq
  have hovers : ((s'.put q query (.waiting s.queryRef)).queries.gather Query.over).Perm
      (s.queries.gather Query.over) := by
    rw [State.put, hqueries]
    refine gather_replace Query.over hq ?_
    rw [Query.over, Query.over, hphase]
    rfl
  have hnew : (s'.put q query (.waiting s.queryRef)).queries.gather (·.phase.pending) =
      s.queryRef :: gather (·.phase.pending) (s.queries.erase q) := by
    rw [State.put, hqueries]
    exact gather_insert (fun query : Query β => query.phase.pending) _ _ _
  have hids : (s.finished.map (·.ref) ++
      (s'.put q query (.waiting s.queryRef)).queries.gather (·.phase.pending)).Perm
      (s.queryRef :: (s.finished.map (·.ref) ++ s.queries.gather (·.phase.pending))) := by
    rw [hphase] at hold
    rw [hnew]
    exact List.perm_middle.trans ((hold.symm.append_left _).cons _)
  refine ⟨?_, ?_, ?_⟩
  · simp only [State.put, hfinished, hdelivered]
    exact h.answered.trans (hovers.symm.append_left _)
  · simp only [State.put, hfinished]
    refine hids.nodup_iff.mpr (List.nodup_cons.mpr ⟨?_, h.ids⟩)
    intro hmem
    exact Nat.lt_irrefl _ (h.given _ hmem)
  · intro n hn
    simp only [State.put, hfinished] at hn
    simp only [State.put, hqueryRef]
    rcases List.mem_cons.mp (hids.mem_iff.mp hn) with rfl | hn
    · exact Nat.lt_succ_self _
    · exact Nat.lt_succ_of_lt (h.given n hn)

theorem Ledger.record (h : Ledger s) (hq : s.queries.lookup q = some query) {ref : Nat}
    {ending : Ending β} (hphase : query.phase = .ended ref ending)
    (hqueries : s'.queries = s.queries)
    (hfinished : s'.finished = s.finished ++ [⟨ref, query.request, ending⟩])
    (hdelivered : s'.delivered = s.delivered) (hqueryRef : s'.queryRef = s.queryRef) :
    Ledger (s'.put q query (.recorded ref ending)) := by
  have hpending := gather_erase (fun query : Query β => query.phase.pending) hq
  have hover := gather_erase Query.over hq
  have hnone : query.over = none := by
    rw [Query.over, hphase]
    rfl
  rw [hphase] at hpending
  rw [hnone] at hover
  have hpending' : (s'.put q query (.recorded ref ending)).queries.gather (·.phase.pending) =
      gather (·.phase.pending) (s.queries.erase q) := by
    rw [State.put, hqueries]
    exact gather_insert (fun query : Query β => query.phase.pending) _ _ _
  have hover' : (s'.put q query (.recorded ref ending)).queries.gather Query.over =
      ⟨ref, query.request, ending⟩ :: gather Query.over (s.queries.erase q) := by
    rw [State.put, hqueries]
    exact gather_insert Query.over _ _ _
  have hids : ((s'.put q query (.recorded ref ending)).finished.map (·.ref) ++
      (s'.put q query (.recorded ref ending)).queries.gather (·.phase.pending)).Perm
      (s.finished.map (·.ref) ++ s.queries.gather (·.phase.pending)) := by
    rw [hpending', State.put, hfinished, List.map_append, List.append_assoc]
    exact hpending.symm.append_left _
  refine ⟨?_, hids.nodup_iff.mpr h.ids, ?_⟩
  · rw [hover', State.put, hfinished, hdelivered]
    have hanswered := h.answered.trans (hover.append_left _)
    refine (List.perm_append_singleton _ _).trans (.trans (hanswered.cons _) ?_)
    exact List.perm_middle.symm
  · intro n hn
    simp only [State.put, hqueryRef]
    exact h.given n (hids.mem_iff.mp hn)

/-- A request that goes without an answer of its own, or is dropped before it is recorded. -/
theorem Ledger.drop (h : Ledger s) (hq : s.queries.lookup q = some query)
    (hover : query.over = none) : Ledger (s.drop q query) := by
  have hpending := gather_erase (fun query : Query β => query.phase.pending) hq
  have hovers := gather_erase Query.over hq
  rw [hover] at hovers
  obtain ⟨-, -, -, hdelivered, hfinished, hqueryRef⟩ := giveBack_rest s query.phase
  have hids := hpending.append_left (s.finished.map (·.ref))
  have hsub := (List.sublist_append_right query.phase.pending.toList
    (gather (·.phase.pending) (s.queries.erase q))).append_left (s.finished.map (·.ref))
  refine ⟨?_, ?_, ?_⟩
  · simp only [State.drop, hfinished, hdelivered]
    exact h.answered.trans (hovers.append_left _)
  · simp only [State.drop, hfinished]
    exact hsub.nodup (hids.nodup_iff.mp h.ids)
  · intro n hn
    simp only [State.drop, hfinished] at hn
    simp only [State.drop, hqueryRef]
    exact h.given n (hids.mem_iff.mpr (hsub.subset hn))

theorem Ledger.deliver (h : Ledger s) (hq : s.queries.lookup q = some query) {ref : Nat}
    {ending : Ending β} (hphase : query.phase = .returned ref ending) :
    Ledger (s.leave q query (.ran ref ending)) := by
  have hpending := gather_erase (fun query : Query β => query.phase.pending) hq
  have hover := gather_erase Query.over hq
  have hsome : query.over = some ⟨ref, query.request, ending⟩ := by
    rw [Query.over, hphase]
    rfl
  rw [hphase] at hpending
  rw [hsome] at hover
  obtain ⟨-, -, -, -, hfinished, hqueryRef⟩ := giveBack_rest s query.phase
  have hids := hpending.append_left (s.finished.map (·.ref))
  refine ⟨?_, ?_, ?_⟩
  · simp only [State.leave, State.drop, hfinished, List.filterMap_append]
    refine h.answered.trans ((hover.append_left _).trans ?_)
    rw [List.append_assoc]
    exact .refl _
  · simp only [State.leave, State.drop, hfinished]
    exact hids.nodup_iff.mp h.ids
  · intro n hn
    simp only [State.leave, State.drop, hfinished] at hn
    simp only [State.leave, State.drop, hqueryRef]
    exact h.given n (hids.mem_iff.mpr hn)

/-- A stage of the work keeps the id. -/
theorem work_pending {cap : Nat} {r : Request β} {p p' : Phase β}
    (h : work numRows cap r p = some p') : p'.pending = p.pending ∧
      (∀ r, p'.over r = none) ∧ ∀ r, p.over r = none := by
  unfold work at h
  split at h
  · split at h <;> cases h <;> exact ⟨rfl, fun _ => rfl, fun _ => rfl⟩
  · split at h
    · cases h
      exact ⟨rfl, fun _ => rfl, fun _ => rfl⟩
    · split at h <;> cases h <;> exact ⟨rfl, fun _ => rfl, fun _ => rfl⟩
  · split at h <;> cases h <;> exact ⟨rfl, fun _ => rfl, fun _ => rfl⟩
  · split at h <;> cases h <;> exact ⟨rfl, fun _ => rfl, fun _ => rfl⟩
  · cases h
    exact ⟨rfl, fun _ => rfl, fun _ => rfl⟩
  · cases h
    exact ⟨rfl, fun _ => rfl, fun _ => rfl⟩
  · split at h <;> cases h <;> exact ⟨rfl, fun _ => rfl, fun _ => rfl⟩
  · cases h

theorem underDeadline_pending {p : Phase β} {ref : Nat} (h : p.underDeadline = some ref) :
    some ref = p.pending ∧ ∀ r, p.over r = none := by
  cases p <;> first | exact ⟨h.symm, fun _ => rfl⟩ | cases h

theorem canDrop_over {p : Phase β} (h : p.canDrop = true) (r : Request β) : p.over r = none := by
  cases p <;> first | rfl | cases h

theorem advance_ledger (h : Ledger s) (hq : s.queries.lookup q = some query)
    (hstep : advance numRows s q query = some t) : Ledger t := by
  unfold advance at hstep
  split at hstep
  · next ref hphase =>
      split at hstep
      · cases hstep
      · cases hstep
        refine h.put ?_ ?_ ?_ ?_ hq ?_ ?_
        · rfl
        · rfl
        · rfl
        · rfl
        · rw [hphase]
          rfl
        · rw [Query.over, hphase]
          rfl
  · next ref ending hphase =>
      cases hstep
      exact h.record hq hphase rfl rfl rfl rfl
  · next ref ending hphase =>
      obtain ⟨hqueries, -, -, hdelivered, hfinished, hqueryRef⟩ := giveBack_rest s query.phase
      cases hstep
      refine h.put hqueries hfinished hdelivered hqueryRef hq ?_ ?_
      · rw [hphase]
        rfl
      · rw [Query.over, hphase]
        rfl
  · next ref ending hphase =>
      cases hstep
      exact h.deliver hq hphase
  · next message hphase =>
      cases hstep
      have hnone : query.over = none := by
        rw [Query.over, hphase]
        rfl
      have hdrop := h.drop hq hnone
      have hdelivered : (s.drop q query).delivered = s.delivered :=
        (giveBack_rest s query.phase).2.2.2.1
      have hanswered := hdrop.answered
      refine ⟨?_, hdrop.ids, hdrop.given⟩
      rw [hdelivered] at hanswered
      simpa only [State.leave, List.filterMap_append, asFinished, List.filterMap_cons,
        List.filterMap_nil, List.append_nil] using hanswered
  · split at hstep
    · cases hstep
    · next p' hwork =>
        cases hstep
        obtain ⟨hpending, hnew, hold⟩ := work_pending hwork
        refine h.put ?_ ?_ ?_ ?_ hq hpending ?_
        · rfl
        · rfl
        · rfl
        · rfl
        · exact (hnew query.request).trans (hold query.request).symm

theorem step_ledger (h : Ledger s) {a : Action β} (hstep : step numRows s a = some t) :
    Ledger t := by
  cases a with
  | arrive q r =>
      rw [step, arrive] at hstep
      split at hstep
      · cases hstep
      · next hfresh =>
          split at hstep
          · cases hstep
            refine ⟨?_, ?_, ?_⟩
            · rw [State.put, gather_fresh Query.over hfresh]
              exact h.answered
            · rw [State.put, gather_fresh (fun query : Query β => query.phase.pending) hfresh]
              exact h.ids
            · rw [State.put, gather_fresh (fun query : Query β => query.phase.pending) hfresh]
              exact h.given
          · cases hstep
            refine ⟨?_, h.ids, h.given⟩
            simpa only [List.filterMap_append, asFinished, List.filterMap_cons,
              List.filterMap_nil, List.append_nil] using h.answered
  | begin q rows =>
      obtain ⟨query, hq, hstep⟩ := Option.bind_eq_some_iff.mp hstep
      unfold Admission.begin at hstep
      split at hstep
      · next hphase =>
          split at hstep
          · cases hstep
            refine h.put rfl rfl rfl rfl hq ?_ ?_
            · rw [hphase]
              rfl
            · rw [Query.over, hphase]
              rfl
          · cases hstep
            rw [State.setMaxResultRows]
            split
            · exact h.begin hq hphase rfl rfl rfl rfl
            · exact h.begin hq hphase rfl rfl rfl rfl
      · cases hstep
  | advance q =>
      obtain ⟨query, hq, hstep⟩ := Option.bind_eq_some_iff.mp hstep
      exact advance_ledger h hq hstep
  | timeout q =>
      obtain ⟨query, hq, hstep⟩ := Option.bind_eq_some_iff.mp hstep
      unfold timeout at hstep
      split at hstep
      · next ref hdeadline =>
          cases hstep
          obtain ⟨hpending, hover⟩ := underDeadline_pending hdeadline
          exact h.put rfl rfl rfl rfl hq hpending (hover query.request).symm
      · cases hstep
  | cancel q =>
      obtain ⟨query, hq, hstep⟩ := Option.bind_eq_some_iff.mp hstep
      unfold cancel at hstep
      split at hstep
      · next hdrop =>
          cases hstep
          exact h.drop hq (canDrop_over hdrop query.request)
      · cases hstep

end Ledger

section Counters

variable {β : Type*} {numRows : β → Nat} {s s' t : State β} {q : Nat} {query : Query β}

def endedAs (outcome : QueryOutcome) (finished : List (Finished β)) : Nat :=
  finished.countP fun f => decide (f.ending.outcome = outcome)

/-- The counters after these records; `left` queries are over for the size of their answer and
not recorded yet. -/
structure Counted (m : QueryMetrics) (finished : List (Finished β)) (left : Nat) : Prop where
  completed : m.completed = UInt64.ofNat finished.length
  timeouts : m.timeouts = UInt64.ofNat (endedAs .timeout finished)
  refused : m.refused = UInt64.ofNat (endedAs .refused finished)
  failed : m.failed = UInt64.ofNat (endedAs .failed finished)
  resultRowsRefused : m.resultRowsRefused =
    UInt64.ofNat (finished.countP (·.ending.isOversized) + left)

theorem endedAs_concat (outcome : QueryOutcome) (finished : List (Finished β)) (f : Finished β) :
    UInt64.ofNat (endedAs outcome (finished ++ [f])) =
      UInt64.ofNat (endedAs outcome finished) +
        if f.ending.outcome = outcome then 1 else 0 := by
  rw [endedAs, List.countP_append, List.countP_singleton, UInt64.ofNat_add]
  congr 1
  by_cases h : f.ending.outcome = outcome <;> simp [h]

theorem record_counters (m : QueryMetrics) (outcome : QueryOutcome) :
    (m.record outcome).completed = m.completed + 1 ∧
      (m.record outcome).timeouts = m.timeouts + (if outcome = .timeout then 1 else 0) ∧
      (m.record outcome).refused = m.refused + (if outcome = .refused then 1 else 0) ∧
      (m.record outcome).failed = m.failed + (if outcome = .failed then 1 else 0) ∧
      (m.record outcome).resultRowsRefused = m.resultRowsRefused := by
  cases outcome <;> simp [QueryMetrics.record]

theorem Counted.record {m : QueryMetrics} {finished : List (Finished β)} {left left' : Nat}
    (h : Counted m finished left) (f : Finished β)
    (hleft : f.ending.isOversized.toNat + left' = left) :
    Counted (m.record f.ending.outcome) (finished ++ [f]) left' := by
  obtain ⟨hcompleted, htimeouts, hrefused, hfailed, hrows⟩ := record_counters m f.ending.outcome
  refine ⟨?_, ?_, ?_, ?_, ?_⟩
  · rw [hcompleted, h.completed, List.length_append, UInt64.ofNat_add]
    rfl
  · rw [htimeouts, h.timeouts, endedAs_concat]
  · rw [hrefused, h.refused, endedAs_concat]
  · rw [hfailed, h.failed, endedAs_concat]
  · rw [hrows, h.resultRowsRefused, List.countP_append, List.countP_singleton, ← hleft]
    congr 1
    cases f.ending.isOversized
    · simp
    · simp
      omega

def State.Counted (s : State β) : Prop :=
  Admission.Counted s.metrics s.finished (s.queries.tally (·.phase.endsOversized))

/-- Nothing is recorded, and as many queries as before are over for their size. -/
theorem counted_same {finished : List (Finished β)} {left : Nat} {m m' : QueryMetrics}
    (h : Counted m finished left)
    (hm : { m' with inFlight := m.inFlight, queued := m.queued } = m) :
    Counted m' finished left where
  completed := (congrArg QueryMetrics.completed hm).trans h.completed
  timeouts := (congrArg QueryMetrics.timeouts hm).trans h.timeouts
  refused := (congrArg QueryMetrics.refused hm).trans h.refused
  failed := (congrArg QueryMetrics.failed hm).trans h.failed
  resultRowsRefused := (congrArg QueryMetrics.resultRowsRefused hm).trans h.resultRowsRefused

theorem put_oversized (hqueries : s'.queries = s.queries) (hq : s.queries.lookup q = some query)
    {p : Phase β} : query.phase.endsOversized.toNat +
      (s'.put q query p).queries.tally (·.phase.endsOversized) =
      p.endsOversized.toNat + s.queries.tally (·.phase.endsOversized) := by
  rw [State.put, hqueries]
  exact tally_replace (fun query : Query β => query.phase.endsOversized) hq

theorem counted_put (h : s.Counted) (hqueries : s'.queries = s.queries)
    (hfinished : s'.finished = s.finished) (hq : s.queries.lookup q = some query) {p : Phase β}
    (hm : { s'.metrics with inFlight := s.metrics.inFlight, queued := s.metrics.queued } =
      s.metrics)
    (hp : p.endsOversized = query.phase.endsOversized) : (s'.put q query p).Counted := by
  have hsame := put_oversized (p := p) hqueries hq
  rw [hp] at hsame
  rw [State.Counted, Nat.add_left_cancel hsame]
  refine counted_same ?_ hm
  rw [State.put, hfinished]
  exact h

theorem giveBack_counted (s : State β) (p : Phase β) :
    { (s.giveBack p).metrics with inFlight := s.metrics.inFlight, queued := s.metrics.queued } =
      s.metrics := by
  rw [State.giveBack]
  split
  · rfl
  · split <;> rfl

theorem counted_drop (h : s.Counted) (hq : s.queries.lookup q = some query)
    (hp : query.phase.endsOversized = false) : (s.drop q query).Counted := by
  have herase := tally_erase (fun query : Query β => query.phase.endsOversized) hq
  rw [hp, Bool.toNat_false, Nat.zero_add] at herase
  obtain ⟨-, -, -, -, hfinished, -⟩ := giveBack_rest s query.phase
  rw [State.Counted, herase] at h
  rw [State.Counted, State.drop, hfinished]
  exact counted_same h (giveBack_counted s query.phase)

theorem work_oversized {cap : Nat} {r : Request β} {p p' : Phase β}
    (h : work numRows cap r p = some p') : p.endsOversized = false := by
  cases p with
  | ended ref ending => cases h
  | _ => rfl

theorem underDeadline_oversized {p : Phase β} {ref : Nat} (h : p.underDeadline = some ref) :
    p.endsOversized = false := by
  cases p <;> first | rfl | cases h

theorem canDrop_oversized {p : Phase β} (h : p.canDrop = true) : p.endsOversized = false := by
  cases p <;> first | rfl | cases h

theorem advance_counted (h : s.Counted) (hq : s.queries.lookup q = some query)
    (hstep : advance numRows s q query = some t) : t.Counted := by
  unfold advance at hstep
  split at hstep
  · next ref hphase =>
      split at hstep
      · cases hstep
      · cases hstep
        refine counted_put h ?_ ?_ hq ?_ ?_
        · rfl
        · rfl
        · rfl
        · rw [hphase]
          rfl
  · next ref ending hphase =>
      cases hstep
      have hleft := put_oversized (p := .recorded ref ending) (rfl : s.queries = s.queries) hq
      rw [hphase] at hleft
      exact Counted.record h ⟨ref, query.request, ending⟩ (hleft.trans (Nat.zero_add _))
  · next ref ending hphase =>
      obtain ⟨hqueries, -, -, -, hfinished, -⟩ := giveBack_rest s query.phase
      cases hstep
      refine counted_put h hqueries hfinished hq (giveBack_counted s query.phase) ?_
      rw [hphase]
      rfl
  · next ref ending hphase =>
      cases hstep
      exact counted_drop h hq (by rw [hphase]; rfl)
  · next message hphase =>
      cases hstep
      exact counted_drop h hq (by rw [hphase]; rfl)
  · split at hstep
    · cases hstep
    · next p' hwork =>
        cases hstep
        have hleft := put_oversized (p := p') (rfl : s.queries = s.queries) hq
        rw [work_oversized hwork, Bool.toNat_false, Nat.zero_add] at hleft
        cases hover : p'.endsOversized with
        | false =>
            rw [hover, Bool.toNat_false, Nat.zero_add] at hleft
            have hsame : (s.put q query p').Counted := by
              rw [State.Counted, hleft]
              exact h
            exact hsame
        | true =>
            rw [hover, Bool.toNat_true] at hleft
            refine ⟨h.completed, h.timeouts, h.refused, h.failed, ?_⟩
            have hrows : s.metrics.resultRowsRefused + 1 = UInt64.ofNat
                (s.finished.countP (·.ending.isOversized) +
                  (s.put q query p').queries.tally (·.phase.endsOversized)) := by
              rw [hleft, h.resultRowsRefused, Nat.add_left_comm, Nat.add_comm 1,
                UInt64.ofNat_add (_ + _) 1]
              rfl
            exact hrows

theorem step_counted (h : s.Counted) {a : Action β} (hstep : step numRows s a = some t) :
    t.Counted := by
  cases a with
  | arrive q r =>
      rw [step, arrive] at hstep
      split at hstep
      · cases hstep
      · next hfresh =>
          split at hstep
          · next l guard htaken =>
              cases hstep
              have hinsert := tally_insert (fun query : Query β => query.phase.endsOversized)
                (w := ⟨guard, r, .arrived⟩) hfresh
              rw [State.Counted, State.put, hinsert]
              exact (Nat.zero_add (s.queries.tally (·.phase.endsOversized))).symm ▸ h
          · cases hstep
            exact h
  | begin q rows =>
      obtain ⟨query, hq, hstep⟩ := Option.bind_eq_some_iff.mp hstep
      unfold Admission.begin at hstep
      split at hstep
      · next hphase =>
          split at hstep
          · cases hstep
            exact counted_put h rfl rfl hq rfl (by rw [hphase]; rfl)
          · cases hstep
            rw [State.setMaxResultRows]
            split
            · refine counted_put h ?_ ?_ hq ?_ ?_
              · rfl
              · rfl
              · rfl
              · rw [hphase]
                rfl
            · refine counted_put h ?_ ?_ hq ?_ ?_
              · rfl
              · rfl
              · rfl
              · rw [hphase]
                rfl
      · cases hstep
  | advance q =>
      obtain ⟨query, hq, hstep⟩ := Option.bind_eq_some_iff.mp hstep
      exact advance_counted h hq hstep
  | timeout q =>
      obtain ⟨query, hq, hstep⟩ := Option.bind_eq_some_iff.mp hstep
      unfold timeout at hstep
      split at hstep
      · next ref hdeadline =>
          cases hstep
          exact counted_put h rfl rfl hq rfl (underDeadline_oversized hdeadline).symm
      · cases hstep
  | cancel q =>
      obtain ⟨query, hq, hstep⟩ := Option.bind_eq_some_iff.mp hstep
      unfold cancel at hstep
      split at hstep
      · next hdrop =>
          cases hstep
          exact counted_drop h hq (canDrop_oversized hdrop)
      · cases hstep

end Counters

section Main

variable {β : Type*} {numRows : β → Nat} {cap maxConcurrent : Nat} {t : State β}
variable {acts : List (Action β)}

/-- The counters of the metrics are those of the records handed to the observer; a record is of a
query whose caller has the answer or is about to get it, each of them once and under an id that no
other has; and the refusals for the size are those recorded and those about to be. -/
theorem queries_recorded
    (run : Run (step numRows) (fun _ _ => True) (start cap maxConcurrent) acts t) :
    t.metrics.completed = UInt64.ofNat t.finished.length ∧
      t.metrics.timeouts = UInt64.ofNat (endedAs .timeout t.finished) ∧
      t.metrics.refused = UInt64.ofNat (endedAs .refused t.finished) ∧
      t.metrics.failed = UInt64.ofNat (endedAs .failed t.finished) ∧
      t.metrics.resultRowsRefused = UInt64.ofNat (t.finished.countP (·.ending.isOversized) +
        t.queries.tally (·.phase.endsOversized)) ∧
      t.finished.Perm (t.delivered.filterMap asFinished ++ t.queries.gather Query.over) ∧
      (t.queryRef ≤ 2 ^ 64 → (t.finished.map fun f => refId f.ref).Nodup) := by
  have hledger : Ledger t :=
    run.invariant (fun _ _ _ hs _ hstep => step_ledger hs hstep) (ledger_start cap maxConcurrent)
  have hcounted : t.Counted := by
    refine run.invariant (P := State.Counted) (fun _ _ _ hs _ hstep => step_counted hs hstep) ?_
    exact ⟨rfl, rfl, rfl, rfl, rfl⟩
  refine ⟨hcounted.completed, hcounted.timeouts, hcounted.refused, hcounted.failed,
    hcounted.resultRowsRefused, hledger.answered, ?_⟩
  intro hunwrapped
  have hids := (List.nodup_append.mp hledger.ids).1
  have htexts : t.finished.map (fun f => refId f.ref) = (t.finished.map (·.ref)).map refId := by
    rw [List.map_map]
    rfl
  rw [htexts]
  refine hids.map_on ?_
  intro m hm n hn heq
  have hbound : ∀ n ∈ t.finished.map (·.ref), n < 2 ^ 64 := fun n hn =>
    Nat.lt_of_lt_of_le (hledger.given n (List.mem_append_left _ hn)) hunwrapped
  exact refId_inj (hbound m hm) (hbound n hn) heq

theorem cappedClient_recorded :
    ∃ t : State Nat, Run (step id) (fun _ _ => True) (start 1 2) cappedClient t ∧
      t.metrics.completed = UInt64.ofNat t.finished.length ∧ t.finished.length = 2 := by
  obtain ⟨t, run, hlength⟩ := exists_run_with (step id) (fun _ _ => True) (start 1 2) cappedClient
    (fun t => t.finished.length = 2) (by decide)
  exact ⟨t, run, (queries_recorded run).1, hlength⟩

end Main

end TimeLake.Admission
