import TimeLake.Admission.Machine

/-!
Slots, permits and gauges over any run. Each of them is given back exactly once on every
way out, so that the permits and the queries that hold one always add up, the gauges read
what is going on, and the map of the client limiter has the live guards and no key
besides. Once no request arrives any more the node comes to rest in a bounded number of
steps, in whatever order they are taken.
-/

namespace TimeLake.Admission

open TimeLake.Library TimeLake.Library.AssocMap
open TimeLake.Selfmon (QueryOutcome)

section Limiter

variable {l l' : ClientLimiter} {held : String → Nat}

/-- The map has the guards that are held, no client is over the cap, and no key is kept
for a client that holds none. -/
structure LimiterExact (l : ClientLimiter) (held : String → Nat) : Prop where
  active : ∀ k, l.active.lookup k = if held k = 0 then none else some (held k)
  bounded : ∀ k, held k ≤ l.cap

def ClientGuard.isOf (k : String) (g : ClientGuard) : Bool := decide (g = some k)

theorem LimiterExact.getD (h : LimiterExact l held) (k : String) :
    (l.active.lookup k).getD 0 = held k := by
  rw [h.active]
  split
  · next hzero => exact hzero.symm
  · rfl

theorem admit_taken (h : LimiterExact l held) {key : Option String} {g : ClientGuard}
    (htaken : l.admit key = (l', some g)) :
    LimiterExact l' fun k => (ClientGuard.isOf k g).toNat + held k := by
  have hnone : ∀ k, (ClientGuard.isOf k none).toNat + held k = held k := by
    intro k
    simp [ClientGuard.isOf]
  unfold ClientLimiter.admit at htaken
  split at htaken
  · obtain ⟨rfl, rfl⟩ : l = l' ∧ none = g := by simpa using htaken
    simpa only [hnone] using h
  · cases key with
    | none =>
        obtain ⟨rfl, rfl⟩ : l = l' ∧ none = g := by simpa using htaken
        simpa only [hnone] using h
    | some k =>
        simp only [h.getD] at htaken
        split at htaken
        · simp at htaken
        · next hroom =>
            obtain ⟨rfl, rfl⟩ := Prod.mk.inj htaken |>.imp id Option.some.inj
            refine ⟨?_, ?_⟩
            · intro j
              by_cases hj : j = k
              · subst hj
                simp [ClientGuard.isOf, Nat.add_comm]
              · have hne : ¬ some k = some j := fun heq => hj (Option.some.inj heq).symm
                simp [ClientGuard.isOf, hne, AList.lookup_insert_ne hj, h.active]
            · intro j
              have hj := h.bounded j
              by_cases hjk : some k = some j
              · cases hjk
                simp only [ClientGuard.isOf, decide_true, Bool.toNat_true]
                omega
              · simpa [ClientGuard.isOf, hjk] using hj

/-- A client is refused only at its cap, and the refusal leaves the map as it was. -/
theorem admit_refused (h : LimiterExact l held) {key : Option String}
    (htaken : l.admit key = (l', none)) :
    LimiterExact l' held ∧ l'.rejected = l.rejected + 1 ∧
      ∃ k, key = some k ∧ 0 < l.cap ∧ held k = l.cap := by
  unfold ClientLimiter.admit at htaken
  split at htaken
  · simp at htaken
  · next hcap =>
      cases key with
      | none => simp at htaken
      | some k =>
          simp only [h.getD] at htaken
          split at htaken
          · next hfull =>
              obtain rfl := (Prod.mk.inj htaken).1
              have hheld : held k = l.cap := Nat.le_antisymm (h.bounded k) hfull
              refine ⟨⟨?_, h.bounded⟩, rfl, k, rfl, by omega, hheld⟩
              intro j
              by_cases hj : j = k
              · subst hj
                rw [AList.lookup_insert, if_neg (by omega)]
              · simp [AList.lookup_insert_ne hj, h.active]
          · simp at htaken

theorem admit_cap (l : ClientLimiter) (key : Option String) : ( l.admit key).1.cap = l.cap := by
  unfold ClientLimiter.admit
  split
  · rfl
  · cases key with
    | none => rfl
    | some k =>
        simp only
        split <;> rfl

theorem release_exact {g : ClientGuard}
    (h : LimiterExact l fun k => (ClientGuard.isOf k g).toNat + held k) :
    LimiterExact (l.release g) held := by
  cases g with
  | none => simpa [ClientGuard.isOf, ClientLimiter.release] using h
  | some k =>
      have hown : l.active.lookup k = some (held k + 1) := by
        have hk := h.active k
        simpa [ClientGuard.isOf, Nat.add_comm] using hk
      have hother : ∀ j, j ≠ k →
          l.active.lookup j = if held j = 0 then none else some (held j) := by
        intro j hj
        have hne : ¬ some k = some j := fun heq => hj (Option.some.inj heq).symm
        have hactive := h.active j
        simpa [ClientGuard.isOf, hne] using hactive
      have hle : ∀ j, held j ≤ l.cap := fun j =>
        Nat.le_trans (Nat.le_add_left _ _) (h.bounded j)
      simp only [ClientLimiter.release, hown, Nat.add_sub_cancel]
      split
      · next hlast =>
          refine ⟨?_, hle⟩
          intro j
          by_cases hj : j = k
          · subst hj
            simp [hlast]
          · simp [AList.lookup_erase_ne hj, hother j hj]
      · next hmore =>
          refine ⟨?_, hle⟩
          intro j
          by_cases hj : j = k
          · subst hj
            simp [hmore]
          · simp [AList.lookup_insert_ne hj, hother j hj]

end Limiter

section Slots

variable {β : Type*} {cap maxConcurrent : Nat} {s s' : State β} {q : Nat} {query : Query β}

def State.holders (s : State β) : Nat := s.queries.tally (·.phase.holdsPermit)

def State.waiters (s : State β) : Nat := s.queries.tally (·.phase.isQueued)

/-- How many live queries have the slot of this client. -/
def State.slots (s : State β) (k : String) : Nat :=
  s.queries.tally (ClientGuard.isOf k ·.guard)

structure Exact (cap maxConcurrent : Nat) (s : State β) : Prop where
  cap : s.limiter.cap = cap
  permits : s.permits + s.holders = max 1 maxConcurrent
  inFlight : s.metrics.inFlight = UInt64.ofNat s.holders
  queued : s.metrics.queued = UInt64.ofNat s.waiters
  limiter : LimiterExact s.limiter s.slots
  rejected : s.limiter.rejected = UInt64.ofNat (s.delivered.countP (·.2.isTooMany))

theorem exact_start : Exact cap maxConcurrent (start cap maxConcurrent : State β) where
  cap := rfl
  permits := rfl
  inFlight := rfl
  queued := rfl
  limiter := ⟨fun _ => rfl, fun _ => Nat.zero_le _⟩
  rejected := rfl

/-- A gauge that went from one phase to the other with its query still reads the sum. -/
private theorem gauge_moves {g g' : UInt64} {old new before after : Nat}
    (hgauge : g = UInt64.ofNat before) (hmoved : g' + UInt64.ofNat old = g + UInt64.ofNat new)
    (hsum : old + after = new + before) : g' = UInt64.ofNat after := by
  have hofNat : UInt64.ofNat old + UInt64.ofNat after =
      UInt64.ofNat new + UInt64.ofNat before := by
    rw [← UInt64.ofNat_add, ← UInt64.ofNat_add, hsum]
  rw [hgauge, UInt64.add_comm (UInt64.ofNat before), ← hofNat, UInt64.add_comm,
    UInt64.add_right_inj] at hmoved
  exact hmoved

/-- What a step does to the shared counters when its query goes on to a phase. -/
structure Moved (s s' : State β) (old new : Phase β) : Prop where
  queries : s'.queries = s.queries
  limiter : s'.limiter = s.limiter
  delivered : s'.delivered = s.delivered
  permits : s'.permits + new.holdsPermit.toNat = s.permits + old.holdsPermit.toNat
  inFlight : s'.metrics.inFlight + UInt64.ofNat old.holdsPermit.toNat =
    s.metrics.inFlight + UInt64.ofNat new.holdsPermit.toNat
  queued : s'.metrics.queued + UInt64.ofNat old.isQueued.toNat =
    s.metrics.queued + UInt64.ofNat new.isQueued.toNat

section Counts

variable (hqueries : s'.queries = s.queries) (hq : s.queries.lookup q = some query)
variable {p : Phase β}

include hqueries hq

theorem put_holders : query.phase.holdsPermit.toNat + (s'.put q query p).holders =
    p.holdsPermit.toNat + s.holders := by
  rw [State.holders, State.put, hqueries]
  exact tally_replace (fun query : Query β => query.phase.holdsPermit) hq

theorem put_waiters : query.phase.isQueued.toNat + (s'.put q query p).waiters =
    p.isQueued.toNat + s.waiters := by
  rw [State.waiters, State.put, hqueries]
  exact tally_replace (fun query : Query β => query.phase.isQueued) hq

theorem put_slots : (s'.put q query p).slots = s.slots := by
  funext k
  have hreplace := tally_replace (fun query : Query β => ClientGuard.isOf k query.guard)
    (w := { query with phase := p }) hq
  rw [State.slots, State.put, hqueries]
  exact Nat.add_left_cancel hreplace

end Counts

theorem Exact.put (h : Exact cap maxConcurrent s) (hq : s.queries.lookup q = some query)
    {p : Phase β} (hmoved : Moved s s' query.phase p) :
    Exact cap maxConcurrent (s'.put q query p) where
  cap := by simpa only [State.put, hmoved.limiter] using h.cap
  permits := by
    have hholders := put_holders (p := p) hmoved.queries hq
    have hpermits := h.permits
    have hmove := hmoved.permits
    have hput : (s'.put q query p).permits = s'.permits := rfl
    omega
  inFlight := gauge_moves h.inFlight hmoved.inFlight (put_holders hmoved.queries hq)
  queued := gauge_moves h.queued hmoved.queued (put_waiters hmoved.queries hq)
  limiter := by
    rw [put_slots hmoved.queries hq]
    simpa only [State.put, hmoved.limiter] using h.limiter
  rejected := by simpa only [State.put, hmoved.limiter, hmoved.delivered] using h.rejected

/-- Phases that hold the same may follow one another with the counters left alone. -/
theorem Moved.same {old new : Phase β} (hqueries : s'.queries = s.queries)
    (hlimiter : s'.limiter = s.limiter) (hdelivered : s'.delivered = s.delivered)
    (hpermits : s'.permits = s.permits) (hinFlight : s'.metrics.inFlight = s.metrics.inFlight)
    (hqueued : s'.metrics.queued = s.metrics.queued)
    (hholds : new.holdsPermit = old.holdsPermit) (hwaits : new.isQueued = old.isQueued) :
    Moved s s' old new where
  queries := hqueries
  limiter := hlimiter
  delivered := hdelivered
  permits := by rw [hpermits, hholds]
  inFlight := by rw [hinFlight, hholds]
  queued := by rw [hqueued, hwaits]

theorem isQueued_of_holdsPermit {p : Phase β} (h : p.holdsPermit = true) : p.isQueued = false := by
  cases p <;> first | rfl | cases h

/-- Dropping what a phase holds is a move to a phase that holds nothing. -/
theorem giveBack_moved (s : State β) (p : Phase β) {new : Phase β}
    (hholds : new.holdsPermit = false) (hwaits : new.isQueued = false) :
    Moved s (s.giveBack p) p new := by
  cases hq : p.isQueued with
  | true =>
      have hh : p.holdsPermit = false := by
        cases hp : p.holdsPermit with
        | false => rfl
        | true => exact absurd (isQueued_of_holdsPermit hp) (by simp [hq])
      have hback : s.giveBack p = { s with metrics := s.metrics.leaveQueue } := by
        rw [State.giveBack, if_pos hq]
      rw [hback]
      constructor <;> simp [hh, hq, hholds, hwaits, QueryMetrics.leaveQueue]
  | false =>
      cases hh : p.holdsPermit with
      | true =>
          have hback : s.giveBack p =
              { s with permits := s.permits + 1, metrics := s.metrics.leaveFlight } := by
            rw [State.giveBack, if_neg (by simp [hq]), if_pos hh]
          rw [hback]
          constructor <;> simp [hh, hq, hholds, hwaits, QueryMetrics.leaveFlight]
      | false =>
          have hback : s.giveBack p = s := by
            rw [State.giveBack, if_neg (by simp [hq]), if_neg (by simp [hh])]
          rw [hback]
          constructor <;> simp [hh, hq, hholds, hwaits]

theorem giveBack_rest (s : State β) (p : Phase β) :
    (s.giveBack p).queries = s.queries ∧ (s.giveBack p).maxResultRows = s.maxResultRows ∧
      (s.giveBack p).ranPlans = s.ranPlans ∧ (s.giveBack p).delivered = s.delivered ∧
      (s.giveBack p).finished = s.finished ∧ (s.giveBack p).queryRef = s.queryRef := by
  rw [State.giveBack]
  split
  · exact ⟨rfl, rfl, rfl, rfl, rfl, rfl⟩
  · split <;> exact ⟨rfl, rfl, rfl, rfl, rfl, rfl⟩

@[simp] theorem release_cap (l : ClientLimiter) (g : ClientGuard) : (l.release g).cap = l.cap := by
  cases g with
  | none => rfl
  | some k =>
      rw [ClientLimiter.release]
      split
      · rfl
      · split <;> rfl

@[simp] theorem release_rejected (l : ClientLimiter) (g : ClientGuard) :
    (l.release g).rejected = l.rejected := by
  cases g with
  | none => rfl
  | some k =>
      rw [ClientLimiter.release]
      split
      · rfl
      · split <;> rfl

theorem drop_holders (hq : s.queries.lookup q = some query) :
    s.holders = query.phase.holdsPermit.toNat + (s.drop q query).holders :=
  tally_erase (fun query : Query β => query.phase.holdsPermit) hq

theorem drop_waiters (hq : s.queries.lookup q = some query) :
    s.waiters = query.phase.isQueued.toNat + (s.drop q query).waiters :=
  tally_erase (fun query : Query β => query.phase.isQueued) hq

theorem drop_slots (hq : s.queries.lookup q = some query) :
    s.slots = fun k => (ClientGuard.isOf k query.guard).toNat + (s.drop q query).slots k := by
  funext k
  exact tally_erase (fun query : Query β => ClientGuard.isOf k query.guard) hq

theorem Exact.drop (h : Exact cap maxConcurrent s) (hq : s.queries.lookup q = some query) :
    Exact cap maxConcurrent (s.drop q query) := by
  have hmoved : Moved s (s.giveBack query.phase) query.phase .arrived :=
    giveBack_moved s query.phase rfl rfl
  have hholders := drop_holders hq
  have hwaiters := drop_waiters hq
  refine ⟨?_, ?_, ?_, ?_, ?_, ?_⟩
  · simpa only [State.drop, release_cap] using h.cap
  · have hpermits := h.permits
    have hmove : (s.drop q query).permits + 0 = s.permits + query.phase.holdsPermit.toNat :=
      hmoved.permits
    omega
  · refine gauge_moves h.inFlight hmoved.inFlight ?_
    simpa only [Phase.holdsPermit, Bool.toNat_false, Nat.zero_add] using hholders.symm
  · refine gauge_moves h.queued hmoved.queued ?_
    simpa only [Phase.isQueued, Bool.toNat_false, Nat.zero_add] using hwaiters.symm
  · have hlimiter := h.limiter
    rw [drop_slots hq] at hlimiter
    exact release_exact hlimiter
  · simpa only [State.drop, release_rejected, hmoved.delivered] using h.rejected

theorem Exact.leave (h : Exact cap maxConcurrent s) (hq : s.queries.lookup q = some query)
    {reply : Reply β} (hreply : reply.isTooMany = false) :
    Exact cap maxConcurrent (s.leave q query reply) := by
  have hdrop := h.drop hq
  have hmoved : Moved s (s.giveBack query.phase) query.phase .arrived :=
    giveBack_moved s query.phase rfl rfl
  have hdelivered : (s.drop q query).delivered = s.delivered := hmoved.delivered
  refine ⟨hdrop.cap, hdrop.permits, hdrop.inFlight, hdrop.queued, hdrop.limiter, ?_⟩
  have hrejected := hdrop.rejected
  rw [hdelivered] at hrejected
  simpa [State.leave, hreply] using hrejected

end Slots

section Steps

variable {β : Type*} {numRows : β → Nat} {cap maxConcurrent : Nat} {s t : State β}
variable {q : Nat} {query : Query β}

def Request.batches (r : Request β) : Nat :=
  match r.stream with
  | .ok items => items.length
  | .error _ => 0

/-- A bound on the steps that a request has before it. -/
def Phase.left (r : Request β) : Phase β → Nat
  | .arrived => 10 + r.batches
  | .waiting _ => 9 + r.batches
  | .admitted _ => 8 + r.batches
  | .registered _ => 7 + r.batches
  | .planned _ => 6 + r.batches
  | .executed .. => 5 + r.batches
  | .streaming _ _ _ _ rest => 4 + rest.length
  | .ended .. => 3
  | .recorded .. => 2
  | .returned .. | .turned _ => 1

def State.left (s : State β) : Nat := s.queries.total fun query => query.phase.left query.request

/-- A stage of the work keeps the permit and comes closer to its end. -/
theorem work_goesOn {r : Request β} {p p' : Phase β} (h : work numRows cap r p = some p') :
    p.holdsPermit = true ∧ p'.holdsPermit = true ∧ p'.left r < p.left r := by
  unfold work at h
  split at h
  · split at h <;> cases h <;> exact ⟨rfl, rfl, by simp only [Phase.left]; omega⟩
  · split at h
    · cases h
      exact ⟨rfl, rfl, by simp only [Phase.left]; omega⟩
    · split at h <;> cases h <;> exact ⟨rfl, rfl, by simp only [Phase.left]; omega⟩
  · split at h <;> cases h <;> exact ⟨rfl, rfl, by simp only [Phase.left]; omega⟩
  · split at h
    · cases h
      exact ⟨rfl, rfl, by simp only [Phase.left]; omega⟩
    · next items hstream =>
        cases h
        refine ⟨rfl, rfl, ?_⟩
        simp only [Phase.left, Request.batches, hstream]
        omega
  · cases h
    exact ⟨rfl, rfl, by simp only [Phase.left]; omega⟩
  · cases h
    exact ⟨rfl, rfl, by simp only [Phase.left]; omega⟩
  · split at h <;> cases h <;>
      exact ⟨rfl, rfl, by simp only [Phase.left, List.length_cons]; omega⟩
  · cases h

@[simp] theorem record_inFlight (m : QueryMetrics) (outcome : QueryOutcome) :
    (m.record outcome).inFlight = m.inFlight := by
  cases outcome <;> rfl

@[simp] theorem record_queued (m : QueryMetrics) (outcome : QueryOutcome) :
    (m.record outcome).queued = m.queued := by
  cases outcome <;> rfl

theorem admit_rejected {l l' : ClientLimiter} {key : Option String} {g : ClientGuard}
    (htaken : l.admit key = (l', some g)) : l'.rejected = l.rejected := by
  unfold ClientLimiter.admit at htaken
  split at htaken
  · cases htaken
    rfl
  · split at htaken
    · cases htaken
      rfl
    · simp only at htaken
      split at htaken
      · cases htaken
      · cases htaken
        rfl

theorem arrive_exact (h : Exact cap maxConcurrent s) {r : Request β}
    (hstep : arrive s q r = some t) : Exact cap maxConcurrent t := by
  rw [arrive] at hstep
  split at hstep
  · cases hstep
  · next hfresh =>
      have hcap := admit_cap s.limiter r.key
      split at hstep
      · next l guard htaken =>
          cases hstep
          rw [htaken] at hcap
          refine ⟨hcap.trans h.cap, ?_, ?_, ?_, ?_, ?_⟩
          · have hholders := tally_insert (fun query : Query β => query.phase.holdsPermit)
              (w := ⟨guard, r, .arrived⟩) hfresh
            have hpermits := h.permits
            rw [State.holders] at hpermits
            rw [State.holders, State.put, hholders]
            simpa only [Phase.holdsPermit, Bool.toNat_false, Nat.zero_add] using hpermits
          · have hholders := tally_insert (fun query : Query β => query.phase.holdsPermit)
              (w := ⟨guard, r, .arrived⟩) hfresh
            have hinFlight := h.inFlight
            rw [State.holders] at hinFlight
            rw [State.holders, State.put, hholders]
            simpa only [Phase.holdsPermit, Bool.toNat_false, Nat.zero_add] using hinFlight
          · have hwaiters := tally_insert (fun query : Query β => query.phase.isQueued)
              (w := ⟨guard, r, .arrived⟩) hfresh
            have hqueued := h.queued
            rw [State.waiters] at hqueued
            rw [State.waiters, State.put, hwaiters]
            simpa only [Phase.isQueued, Bool.toNat_false, Nat.zero_add] using hqueued
          · have hslots : State.slots (State.put { s with limiter := l } q
                ⟨guard, r, .arrived⟩ .arrived) =
                fun k => (ClientGuard.isOf k guard).toNat + s.slots k := by
              funext k
              exact tally_insert (fun query : Query β => ClientGuard.isOf k query.guard) hfresh
            rw [hslots]
            exact admit_taken h.limiter htaken
          · exact (admit_rejected htaken).trans h.rejected
      · next l htaken =>
          cases hstep
          rw [htaken] at hcap
          obtain ⟨hlimiter, hrejected, -⟩ := admit_refused h.limiter htaken
          refine ⟨hcap.trans h.cap, h.permits, h.inFlight, h.queued, hlimiter, ?_⟩
          simp only [List.countP_append, List.countP_singleton, Reply.isTooMany, if_true]
          rw [hrejected, h.rejected, UInt64.ofNat_add]
          rfl

theorem begin_exact (h : Exact cap maxConcurrent s) (hq : s.queries.lookup q = some query)
    {rows : Nat} (hstep : begin s q query rows = some t) : Exact cap maxConcurrent t := by
  unfold begin at hstep
  split at hstep
  · next hphase =>
      split at hstep
      · cases hstep
        exact h.put hq (.same rfl rfl rfl rfl rfl rfl (by rw [hphase]; rfl) (by rw [hphase]; rfl))
      · cases hstep
        refine h.put hq ?_
        rw [hphase, State.setMaxResultRows]
        split <;> constructor <;>
          simp [Phase.holdsPermit, Phase.isQueued, QueryMetrics.enterQueue]
  · cases hstep

theorem advance_exact (h : Exact cap maxConcurrent s) (hq : s.queries.lookup q = some query)
    (hstep : advance numRows s q query = some t) : Exact cap maxConcurrent t := by
  unfold advance at hstep
  split at hstep
  · next ref hphase =>
      split at hstep
      · cases hstep
      · next hfree =>
          cases hstep
          refine h.put hq ?_
          rw [hphase]
          constructor <;>
            simp [Phase.holdsPermit, Phase.isQueued, QueryMetrics.leaveQueue,
              QueryMetrics.enterFlight]
          omega
  · next ref ending hphase =>
      cases hstep
      refine h.put hq (.same rfl rfl rfl rfl ?_ ?_ ?_ ?_)
      · exact record_inFlight _ _
      · exact record_queued _ _
      · rw [hphase]
        rfl
      · rw [hphase]
        rfl
  · cases hstep
    exact h.put hq (giveBack_moved _ _ rfl rfl)
  · cases hstep
    exact h.leave hq rfl
  · cases hstep
    exact h.leave hq rfl
  · split at hstep
    · cases hstep
    · next p' hwork =>
        cases hstep
        obtain ⟨hold, hnew, -⟩ := work_goesOn hwork
        refine h.put hq (.same rfl rfl rfl rfl ?_ ?_ (hnew.trans hold.symm) ?_)
        · simp only
          split <;> rfl
        · simp only
          split <;> rfl
        · rw [isQueued_of_holdsPermit hold, isQueued_of_holdsPermit hnew]

theorem underDeadline_holds {p : Phase β} {ref : Nat} (h : p.underDeadline = some ref) :
    p.holdsPermit = true := by
  cases p <;> first | rfl | cases h

theorem step_exact (h : Exact cap maxConcurrent s) {a : Action β}
    (hstep : step numRows s a = some t) : Exact cap maxConcurrent t := by
  cases a with
  | arrive q r => exact arrive_exact h hstep
  | begin q rows =>
      obtain ⟨query, hq, hstep⟩ := Option.bind_eq_some_iff.mp hstep
      exact begin_exact h hq hstep
  | advance q =>
      obtain ⟨query, hq, hstep⟩ := Option.bind_eq_some_iff.mp hstep
      exact advance_exact h hq hstep
  | timeout q =>
      obtain ⟨query, hq, hstep⟩ := Option.bind_eq_some_iff.mp hstep
      unfold timeout at hstep
      split at hstep
      · next ref hdeadline =>
          cases hstep
          have hholds := underDeadline_holds hdeadline
          refine h.put hq (.same rfl rfl rfl rfl rfl rfl hholds.symm ?_)
          rw [isQueued_of_holdsPermit hholds]
          rfl
      · cases hstep
  | cancel q =>
      obtain ⟨query, hq, hstep⟩ := Option.bind_eq_some_iff.mp hstep
      unfold cancel at hstep
      split at hstep
      · cases hstep
        exact h.drop hq
      · cases hstep

theorem run_exact {ok : State β → Action β → Prop} {acts : List (Action β)}
    (run : Run (step numRows) ok s acts t) (h : Exact cap maxConcurrent s) :
    Exact cap maxConcurrent t :=
  run.invariant (fun _ _ _ hs _ hstep => step_exact hs hstep) h

theorem left_put {s' : State β} (hqueries : s'.queries = s.queries)
    (hq : s.queries.lookup q = some query) {p : Phase β}
    (hless : p.left query.request < query.phase.left query.request) :
    (s'.put q query p).left < s.left := by
  have hreplace : query.phase.left query.request + (s'.put q query p).left =
      p.left query.request + s.left := by
    rw [State.left, State.put, hqueries]
    exact total_replace (fun query : Query β => query.phase.left query.request) hq
  omega

theorem left_pos (r : Request β) (p : Phase β) : 0 < p.left r := by
  cases p <;> simp only [Phase.left] <;> omega

theorem left_drop (hq : s.queries.lookup q = some query) : (s.drop q query).left < s.left := by
  have herase : s.left = query.phase.left query.request + (s.drop q query).left :=
    total_erase (fun query : Query β => query.phase.left query.request) hq
  have hpos := left_pos query.request query.phase
  omega

theorem advance_left (hq : s.queries.lookup q = some query)
    (hstep : advance numRows s q query = some t) : t.left < s.left := by
  unfold advance at hstep
  split at hstep
  · next ref hphase =>
      split at hstep
      · cases hstep
      · cases hstep
        refine left_put rfl hq ?_
        rw [hphase]
        simp only [Phase.left]
        omega
  · next ref ending hphase =>
      cases hstep
      refine left_put rfl hq ?_
      rw [hphase]
      exact Nat.lt_succ_self _
  · next ref ending hphase =>
      cases hstep
      have hmoved : Moved s (s.giveBack query.phase) query.phase (.returned ref ending) :=
        giveBack_moved s query.phase rfl rfl
      refine left_put hmoved.queries hq ?_
      rw [hphase]
      exact Nat.lt_succ_self _
  · cases hstep
    exact left_drop hq
  · cases hstep
    exact left_drop hq
  · split at hstep
    · cases hstep
    · next p' hwork =>
        cases hstep
        exact left_put rfl hq (work_goesOn hwork).2.2

/-- Every step but an arrival brings the node closer to rest. -/
theorem step_left {a : Action β} (ha : a.arrives = false) (hstep : step numRows s a = some t) :
    t.left < s.left := by
  cases a with
  | arrive q r => cases ha
  | begin q rows =>
      obtain ⟨query, hq, hstep⟩ := Option.bind_eq_some_iff.mp hstep
      unfold begin at hstep
      split at hstep
      · next hphase =>
          have hqueries : (s.setMaxResultRows rows).queries = s.queries := by
            rw [State.setMaxResultRows]
            split <;> rfl
          split at hstep
          · cases hstep
            refine left_put rfl hq ?_
            rw [hphase]
            simp only [Phase.left]
            omega
          · cases hstep
            refine left_put hqueries hq ?_
            rw [hphase]
            simp only [Phase.left]
            omega
      · cases hstep
  | advance q =>
      obtain ⟨query, hq, hstep⟩ := Option.bind_eq_some_iff.mp hstep
      exact advance_left hq hstep
  | timeout q =>
      obtain ⟨query, hq, hstep⟩ := Option.bind_eq_some_iff.mp hstep
      unfold timeout at hstep
      split at hstep
      · next ref hdeadline =>
          cases hstep
          refine left_put rfl hq ?_
          cases hphase : query.phase <;> rw [hphase] at hdeadline <;>
            simp only [Phase.underDeadline, reduceCtorEq] at hdeadline <;>
            simp only [Phase.left] <;> omega
      · cases hstep
  | cancel q =>
      obtain ⟨query, hq, hstep⟩ := Option.bind_eq_some_iff.mp hstep
      unfold cancel at hstep
      split at hstep
      · cases hstep
        exact left_drop hq
      · cases hstep

/-- The work behind the permit never gets stuck. -/
theorem work_isSome (r : Request β) {p : Phase β} (hholds : p.holdsPermit = true)
    (hended : ∀ ref ending, p ≠ .ended ref ending)
    (hrecorded : ∀ ref ending, p ≠ .recorded ref ending) :
    (work numRows cap r p).isSome = true := by
  cases p with
  | arrived | waiting | returned | turned => cases hholds
  | admitted ref =>
      simp only [work]
      split <;> rfl
  | registered ref =>
      simp only [work]
      split
      · rfl
      · split <;> rfl
  | planned ref =>
      simp only [work]
      split <;> rfl
  | executed ref cap =>
      simp only [work]
      split <;> rfl
  | streaming ref cap batches rows rest =>
      match rest with
      | [] => rfl
      | .error _ :: _ => rfl
      | .ok batch :: rest =>
          simp only [work]
          split <;> rfl
  | ended ref ending => exact absurd rfl (hended ref ending)
  | recorded ref ending => exact absurd rfl (hrecorded ref ending)

theorem advance_isSome (h : query.phase.holdsPermit = true) :
    (advance numRows s q query).isSome = true := by
  unfold advance
  split
  · next hphase =>
      rw [hphase] at h
      cases h
  · rfl
  · rfl
  · rfl
  · rfl
  · next hended hrecorded _ _ =>
      have hwork : (work numRows s.maxResultRows query.request query.phase).isSome = true :=
        work_isSome query.request h hended hrecorded
      split
      · next hnone =>
          rw [hnone] at hwork
          cases hwork
      · rfl

/-- A query that does not wait for a permit can go on, and so can one for which a permit is
free. -/
theorem exists_step (hq : s.queries.lookup q = some query)
    (h : query.phase.isQueued = false ∨ 0 < s.permits) :
    ∃ a, a.arrives = false ∧ (step numRows s a).isSome = true := by
  have hadvance : (advance numRows s q query).isSome = true →
      ∃ a, a.arrives = false ∧ (step numRows s a).isSome = true := by
    intro hsome
    refine ⟨.advance q, rfl, ?_⟩
    rw [step, hq]
    exact hsome
  cases hholds : query.phase.holdsPermit with
  | true => exact hadvance (advance_isSome hholds)
  | false =>
      cases hphase : query.phase with
      | arrived =>
          refine ⟨.begin q 0, rfl, ?_⟩
          rw [step, hq, Option.bind_some, begin, hphase]
          simp only
          split <;> rfl
      | waiting ref =>
          apply hadvance
          have hfree : s.permits ≠ 0 := by
            rcases h with hqueued | hfree
            · rw [hphase] at hqueued
              cases hqueued
            · omega
          rw [advance, hphase]
          simp only [if_neg hfree]
          rfl
      | returned ref ending =>
          apply hadvance
          rw [advance, hphase]
          rfl
      | turned message =>
          apply hadvance
          rw [advance, hphase]
          rfl
      | _ =>
          rw [hphase] at hholds
          cases hholds

/-- While a request is live, some step other than an arrival can be taken: where all wait for
a permit and none is free, one of those that hold a permit can go on. -/
theorem Exact.progress (h : Exact cap maxConcurrent s) (hq : s.queries.lookup q = some query) :
    ∃ a, a.arrives = false ∧ (step numRows s a).isSome = true := by
  by_cases hfree : 0 < s.permits
  · exact exists_step hq (.inr hfree)
  · have hpermits := h.permits
    have hpos : 0 < s.holders := by omega
    obtain ⟨j, holder, hj, hholds⟩ := exists_of_tally_pos _ hpos
    exact exists_step hj (.inl (isQueued_of_holdsPermit hholds))

theorem Exact.idle (h : Exact cap maxConcurrent s) (hempty : s.queries = ∅) :
    s.permits = max 1 maxConcurrent ∧ s.metrics.inFlight = 0 ∧ s.metrics.queued = 0 ∧
      s.limiter.active = ∅ := by
  have hholders : s.holders = 0 := by
    rw [State.holders, hempty]
    rfl
  have hwaiters : s.waiters = 0 := by
    rw [State.waiters, hempty]
    rfl
  have hslots : ∀ k, s.slots k = 0 := by
    intro k
    rw [State.slots, hempty]
    rfl
  have hpermits := h.permits
  have hinFlight := h.inFlight
  have hqueued := h.queued
  rw [hholders] at hpermits hinFlight
  rw [hwaiters] at hqueued
  refine ⟨hpermits, hinFlight, hqueued, eq_empty ?_⟩
  intro k
  rw [h.limiter.active, if_pos (hslots k)]

end Steps

section Main

variable {β : Type*} {numRows : β → Nat} {cap maxConcurrent : Nat} {t : State β}
variable {acts : List (Action β)}

/-- Whatever happened before: the free permits and the queries that hold one make up the
semaphore, both gauges read the number of queries they are about, the limiter knows each
client's live queries and no other key, and it turns a request away exactly when its client
has as many as the cap allows. -/
theorem slots_exact
    (run : Run (step numRows) (fun _ _ => True) (start cap maxConcurrent) acts t) :
    t.permits + t.holders = max 1 maxConcurrent ∧
      t.metrics.inFlight = UInt64.ofNat t.holders ∧
      t.metrics.queued = UInt64.ofNat t.waiters ∧
      (∀ k, t.limiter.active.lookup k = if t.slots k = 0 then none else some (t.slots k)) ∧
      (∀ k, t.slots k ≤ cap) ∧
      (∀ key, ( t.limiter.admit key).2 = none ↔ ∃ k, key = some k ∧ 0 < cap ∧ t.slots k = cap) ∧
      t.limiter.rejected = UInt64.ofNat (t.delivered.countP (·.2.isTooMany)) := by
  have h := run_exact run exact_start
  have hcap := h.cap
  refine ⟨h.permits, h.inFlight, h.queued, h.limiter.active, ?_, ?_, h.rejected⟩
  · intro k
    rw [← hcap]
    exact h.limiter.bounded k
  · intro key
    constructor
    · intro hnone
      have htaken : t.limiter.admit key = (( t.limiter.admit key).1, none) := Prod.ext rfl hnone
      obtain ⟨-, -, hrefused⟩ := admit_refused h.limiter htaken
      rwa [hcap] at hrefused
    · rintro ⟨k, rfl, hpos, hfull⟩
      unfold ClientLimiter.admit
      rw [if_neg (by omega)]
      simp only [h.limiter.getD, if_pos (Nat.le_of_eq (hcap.trans hfull.symm))]

def twoBatches : Request Nat where
  key := some "ip:1"
  db := "poc"
  identity := none
  assembly := none
  register := none
  plan := .ok (.explain (.node .projection [.node .tableScan []]))
  execute := none
  stream := .ok [.ok 2, .ok 3]

/-- A client with a cap of one: its second request is turned away, its first is refused at a row
cap of four, and a third one is answered under a cap of ten. -/
def cappedClient : List (Action Nat) :=
  [Action.arrive 1 twoBatches, .arrive 2 twoBatches, .begin 1 4] ++
    List.replicate 10 (Action.advance 1) ++ [Action.arrive 3 twoBatches, .begin 3 10] ++
    List.replicate 11 (Action.advance 3)

theorem cappedClient_slots :
    ∃ t : State Nat, Run (step id) (fun _ _ => True) (start 1 2) cappedClient t ∧
      t.permits + t.holders = 2 ∧ t.delivered.length = 3 ∧ t.limiter.rejected = 1 := by
  obtain ⟨t, run, hlength, hrejected⟩ := exists_run_with (step id) (fun _ _ => True) (start 1 2)
    cappedClient (fun t => t.delivered.length = 3 ∧ t.limiter.rejected = 1) (by decide)
  exact ⟨t, run, (slots_exact run).1, hlength, hrejected⟩

/-- Once no request arrives any more, at most `left` steps are taken, in whatever order; and
where no step is possible nothing is live, every permit is back, the gauges are at zero and
the limiter remembers no client. -/
theorem node_drains {u : State β} {rest : List (Action β)}
    (run : Run (step numRows) (fun _ _ => True) (start cap maxConcurrent) acts t)
    (quiet : Run (step numRows) (fun _ a => a.arrives = false) t rest u) :
    rest.length + u.left ≤ t.left ∧
      ((∀ a, a.arrives = false → step numRows u a = none) →
        u.queries = ∅ ∧ u.permits = max 1 maxConcurrent ∧ u.metrics.inFlight = 0 ∧
          u.metrics.queued = 0 ∧ u.limiter.active = ∅) := by
  refine ⟨?_, ?_⟩
  · clear run
    induction quiet with
    | nil t => simp
    | cons hquiet hstep _ ih =>
        have hless := step_left hquiet hstep
        rw [List.length_cons]
        omega
  · intro hstuck
    have h := run_exact quiet (run_exact run exact_start)
    have hempty : u.queries = ∅ := by
      apply eq_empty
      intro q
      cases hq : u.queries.lookup q with
      | none => rfl
      | some query =>
          obtain ⟨a, hquiet, hsome⟩ : ∃ a, a.arrives = false ∧ (step numRows u a).isSome = true :=
            h.progress hq
          rw [hstuck a hquiet] at hsome
          cases hsome
    exact ⟨hempty, h.idle hempty⟩

theorem waitingClient_drains :
    ∃ t u : State Nat,
      Run (step id) (fun _ _ => True) (start 1 1) [.arrive 1 twoBatches, .begin 1 0] t ∧
      Run (step id) (fun _ a => a.arrives = false) t (List.replicate 11 (.advance 1)) u ∧
      11 + u.left ≤ t.left ∧ t.left = 11 := by
  obtain ⟨t, run, hleft, hrest⟩ := exists_run_with (step id) (fun _ _ => True) (start 1 1)
    [.arrive 1 twoBatches, .begin 1 0]
    (fun t => t.left = 11 ∧ (checkedRun (step id) (fun _ a => a.arrives = false) t
      (List.replicate 11 (.advance 1))).isSome = true) (by decide)
  obtain ⟨u, hu⟩ := Option.isSome_iff_exists.mp hrest
  have quiet := run_of_checkedRun hu
  exact ⟨t, u, run, quiet, (node_drains run quiet).1, hleft⟩

end Main

end TimeLake.Admission
