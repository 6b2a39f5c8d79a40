import TimeLake.Admin.Ledger

/-!
The audit gate of the admin plane once the log is broken: nothing gets past it until the
log has acknowledged a record again.
-/

namespace TimeLake.Admin.Plane

open TimeLake.Auth (Role SessionInfo)
open TimeLake.Audit (NewRecord AuditRecord HashInput)
open TimeLake.Library

variable {ι : Type} [DecidableEq ι] {sha : HashInput → String} {len : AuditRecord → Nat}
  {bodies : Bodies} {reqs : ι → Request}

section Log

/-- What a step makes of the log. -/
theorem step_log {s t : State ι} {a : Action ι} (hs : step sha len bodies reqs s a = some t) :
    t.log.failOpen = s.log.failOpen ∧ ∃ new, t.log.sink.acked = s.log.sink.acked ++ new ∧
      (new = [] → s.log.healthy = false → t.log.healthy = false) := by
  have hwrite : ∀ {nr : NewRecord} {e : Append} {p : AuditLog × Bool},
      s.log.record sha len nr e = some p →
        p.1.failOpen = s.log.failOpen ∧ ∃ new, p.1.sink.acked = s.log.sink.acked ++ new ∧
          (new = [] → p.1.healthy = false) := by
    intro nr e p hp
    obtain ⟨hfail, hhealthy, new, hacked, hmap⟩ := record_cases hp
    refine ⟨hfail, new, hacked, ?_⟩
    rintro rfl
    cases hok : p.2 with
    | true => simp [hok] at hmap
    | false => rw [hhealthy, hok]
  cases stepped_of_step hs with
  | quiet _ => exact ⟨rfl, [], (List.append_nil _).symm, fun _ h => h⟩
  | called _ _ => exact ⟨rfl, [], (List.append_nil _).symm, fun _ h => h⟩
  | @concluded i session m before result view e _ hphase ht =>
      unfold State.conclude at ht
      split at ht
      · obtain ⟨p, hp, rfl⟩ := Option.map_eq_some_iff.mp ht
        obtain ⟨hfail, new, hacked, hbroken⟩ := hwrite hp
        rw [State.setPhase, (noted_phase s _ _ p).2.2]
        exact ⟨hfail, new, hacked, fun h _ => hbroken h⟩
      · obtain ⟨p, hp, rfl⟩ := Option.map_eq_some_iff.mp ht
        obtain ⟨hfail, new, hacked, hbroken⟩ := hwrite hp
        rw [State.setPhase, (noted_phase s _ _ p).2.2]
        exact ⟨hfail, new, hacked, fun h _ => hbroken h⟩
      · obtain rfl := Option.some.inj ht
        exact ⟨rfl, [], (List.append_nil _).symm, fun _ h => h⟩
  | bestEffort hp =>
      obtain ⟨q, hq, rfl⟩ := Option.map_eq_some_iff.mp hp
      obtain ⟨hfail, new, hacked, hbroken⟩ := hwrite hq
      rw [(noted_phase s none _ _).2.2]
      obtain ⟨log', ok⟩ := q
      cases ok <;> exact ⟨hfail, new, hacked, fun h _ => hbroken h⟩

/-- What the log has acknowledged stays. -/
theorem acked_grows {s t : State ι} {acts : List (Action ι)}
    (run : Run (step sha len bodies reqs) (fun _ _ => True) s acts t) :
    s.log.sink.acked <+: t.log.sink.acked := by
  induction run with
  | nil s => exact List.prefix_rfl
  | cons _ hs _ ih =>
      obtain ⟨_, new, hacked, _⟩ := step_log hs
      exact List.IsPrefix.trans ⟨new, hacked.symm⟩ ih

theorem conclude_phase {s t : State ι} {i : ι} {source : Option String} {session : SessionInfo}
    {m : Mutation} {before : Option (Json Int)} {result : Except Failure m.call.Answer}
    {view : View} {e : Append}
    (h : s.conclude sha len i source session m before result view e = some t) :
    t.calls = s.calls ∧ (t.phase i).pastGate = false ∧ ∀ j, j ≠ i → t.phase j = s.phase j := by
  unfold State.conclude at h
  split at h
  · obtain ⟨p, _, rfl⟩ := Option.map_eq_some_iff.mp h
    refine ⟨(noted_phase s _ _ p).2.1, by rw [setPhase_self]; rfl, fun j hj => ?_⟩
    rw [setPhase_other _ _ hj, (noted_phase s _ _ p).1]
  · obtain ⟨p, _, rfl⟩ := Option.map_eq_some_iff.mp h
    refine ⟨(noted_phase s _ _ p).2.1, by rw [setPhase_self]; rfl, fun j hj => ?_⟩
    rw [setPhase_other _ _ hj, (noted_phase s _ _ p).1]
  · obtain rfl := Option.some.inj h
    exact ⟨rfl, by rw [setPhase_self]; rfl, fun j hj => setPhase_other s _ hj⟩

end Log

section Door

/-- Of a state with a broken log that fails closed, and one reached from it while no
record could be written. -/
structure Shut (s t : State ι) : Prop where
  broken : t.log.healthy = false
  closed : t.log.failOpen = false
  nobody : ∀ i, (t.phase i).pastGate = true → (s.phase i).pastGate = true
  calls : ∃ made : List (ι × Made), t.calls = s.calls ++ made ∧ (made.map Prod.fst).Nodup ∧
    ∀ i ∈ made.map Prod.fst, (s.phase i).pastGate = true ∧ (t.phase i).pastGate = false

theorem Shut.phase {s t u : State ι} {i : ι} (h : Shut s t) (hlog : u.log.healthy = false)
    (hfail : u.log.failOpen = false) (hcalls : u.calls = t.calls)
    (hself : (u.phase i).pastGate = true → (t.phase i).pastGate = true)
    (hother : ∀ j, j ≠ i → u.phase j = t.phase j) : Shut s u := by
  have hback : ∀ j, (u.phase j).pastGate = true → (t.phase j).pastGate = true := by
    intro j hj
    by_cases hji : j = i
    · subst hji
      exact hself hj
    · rwa [hother j hji] at hj
  obtain ⟨made, hmade, hnodup, hpast⟩ := h.calls
  refine ⟨hlog, hfail, fun j hj => h.nobody j (hback j hj), made, hcalls.trans hmade, hnodup, ?_⟩
  intro j hj
  refine ⟨(hpast j hj).1, ?_⟩
  cases hu : (u.phase j).pastGate with
  | false => rfl
  | true => exact (hback j hu).symm.trans (hpast j hj).2

theorem pastGate_setPhase {t : State ι} {i j : ι} {p : Phase} (hp : p.pastGate = false)
    (h : ((t.setPhase i p).phase j).pastGate = true) : j ≠ i ∧ (t.phase j).pastGate = true := by
  by_cases hj : j = i
  · subst hj
    rw [setPhase_self, hp] at h
    cases h
  · rw [setPhase_other t p hj] at h
    exact ⟨hj, h⟩

theorem Shut.step {s t u : State ι} {a : Action ι} (h : Shut s t)
    (hs : step sha len bodies reqs t a = some u)
    (hsame : u.log.sink.acked = t.log.sink.acked) : Shut s u := by
  obtain ⟨hfail, new, hacked, hbroken⟩ := step_log hs
  have hnew : new = [] := by
    rw [hsame] at hacked
    exact List.self_eq_append_right.mp hacked
  have hlog := hbroken hnew h.broken
  have hclosed := hfail.trans h.closed
  cases stepped_of_step hs with
  | @quiet i _ p hq =>
      refine h.phase hlog hclosed rfl ?_ (fun j hj => setPhase_other t p hj)
      rw [setPhase_self]
      exact hq.pastGate (by rw [AuditLog.gate, h.broken, h.closed]; rfl)
  | @called i session m before answer hphase =>
      obtain ⟨made, hmade, hnodup, hpast⟩ := h.calls
      have hpg : (t.phase i).pastGate = true := by
        rw [hphase]
        rfl
      have hphases : ∀ j,
          ((t.setPhase i (.called session m before (answer m.call))).phase j).pastGate = true →
            j ≠ i ∧ (t.phase j).pastGate = true :=
        fun j hj => pastGate_setPhase rfl hj
      have hnotin : i ∉ made.map Prod.fst := by
        intro hin
        rw [(hpast i hin).2] at hpg
        cases hpg
      refine ⟨hlog, hclosed, fun j hj => h.nobody j (hphases j hj).2,
        made ++ [(i, ⟨session, m.call, answer m.call⟩)], ?_, ?_, ?_⟩
      · rw [hmade, List.append_assoc]
      · rw [List.map_append]
        exact hnodup.append (List.nodup_singleton i) (by simpa using hnotin)
      · intro j hj
        rw [List.map_append, List.mem_append] at hj
        constructor
        · rcases hj with hold | hlast
          · exact (hpast j hold).1
          · obtain rfl := List.mem_singleton.mp hlast
            exact h.nobody _ hpg
        · refine Bool.eq_false_iff.mpr fun hu => ?_
          obtain ⟨hji, htrue⟩ := hphases j hu
          rcases hj with hold | hlast
          · exact Bool.eq_false_iff.mp (hpast j hold).2 htrue
          · exact hji (List.mem_singleton.mp hlast)
  | concluded _ ht =>
      obtain ⟨hcalls, hself, hother⟩ := conclude_phase ht
      refine h.phase hlog hclosed hcalls ?_ hother
      rw [hself]
      exact nofun
  | @bestEffort event _ p _ =>
      obtain ⟨hphase, hcalls, _⟩ := noted_phase t none event.record p
      obtain ⟨made, hmade, hnodup, hpast⟩ := h.calls
      refine ⟨hlog, hclosed, ?_, made, hcalls.trans hmade, hnodup, ?_⟩
      · rw [hphase]
        exact h.nobody
      · rw [hphase]
        exact hpast

/-- A log that fails closed keeps its door shut: from the moment it is broken until it
acknowledges a record again, in any run, the only calls are those of requests that were
past the gate already, one for each at most, and no other gets past it. -/
theorem door_shut (s t : State ι) (acts : List (Action ι))
    (run : Run (step sha len bodies reqs) (fun _ _ => True) s acts t)
    (hclosed : s.log.failOpen = false) (hbroken : s.log.healthy = false)
    (hnothing : t.log.sink.acked = s.log.sink.acked) : Shut s t := by
  have hfrom : ∀ u w acts, Run (step sha len bodies reqs) (fun _ _ => True) u acts w →
      w.log.sink.acked = s.log.sink.acked → u.log.sink.acked = s.log.sink.acked →
      Shut s u → Shut s w := by
    intro u w acts run
    induction run with
    | nil u => exact fun _ _ h => h
    | @cons u v w a rest _ hs htail ih =>
        intro hend hsame hu
        obtain ⟨_, new, hacked, _⟩ := step_log hs
        have hgrown := (acked_grows htail).length_le
        have hv : v.log.sink.acked = u.log.sink.acked := by
          rw [hend, hacked, ← hsame, List.length_append] at hgrown
          rw [hacked, List.length_eq_zero_iff.mp (by omega : new.length = 0), List.append_nil]
        exact ih hend (hv.trans hsame) (hu.step hs hv)
  refine hfrom s t acts run hnothing rfl ⟨hbroken, hclosed, fun _ h => h, [],
    (List.append_nil _).symm, List.nodup_nil, ?_⟩
  intro i hi
  cases hi

def refusedDrop : List (Action Bool) :=
  [.guard true twoSessions, .look true emptyView, .plan true emptyView, .gate true]

theorem refusedDrop_shut : ∃ t,
    Run (step prevAndTime hundredBytes noBodies dropRequests) (fun _ _ => True)
      (start (logWith false)) refusedDrop t ∧ Shut (start (logWith false)) t := by
  have run : Run (step prevAndTime hundredBytes noBodies dropRequests) (fun _ _ => True)
      (start (logWith false)) refusedDrop _ :=
    .cons trivial rfl (.cons trivial rfl (.cons trivial rfl (.cons trivial rfl (.nil _))))
  exact ⟨_, run, door_shut _ _ refusedDrop run rfl rfl rfl⟩

end Door

end TimeLake.Admin.Plane
