import TimeLake.Admin.Accountable

/-!
The ledger of the admin plane. In every run each request makes one call at most, for a
session with the authority for it, and the trail has one record of it at most, which says
who made it and what came of it. A request is answered with a success only if its record
is in the trail, unless the log fails open or nothing was called.
-/

namespace TimeLake.Admin.Plane

open TimeLake.Auth (Role SessionInfo)
open TimeLake.Audit (NewRecord AuditRecord HashInput)
open TimeLake.Library

section Guard

variable {sessions : String → Option SessionInfo} {req : Request} {session : SessionInfo}

/-- Whom the guard lets in: the session of the secret presented; a browser only with
the session's own token and from the same origin; and who has to change the password
only to that. -/
structure Admitted (sessions : String → Option SessionInfo) (req : Request)
    (session : SessionInfo) : Prop where
  found : (presented req.headers).bind sessions = some session
  csrf : req.method.mutating = true → bearer req.headers = none →
    header req.headers csrfHeader = some session.csrf ∧ crossOrigin req.headers = false
  rotated : session.mustChangePassword = true → unlocked req.path = true

theorem adminGuard_admitted (h : adminGuard sessions req = .ok session) :
    Admitted sessions req session := by
  unfold adminGuard at h
  cases hfound : (presented req.headers).bind sessions with
  | none =>
      rw [hfound] at h
      cases h
  | some found =>
      simp only [hfound] at h
      split at h
      · cases h
      · next hcsrf =>
          split at h
          · cases h
          · next horigin =>
              split at h
              · cases h
              · next hlocked =>
                  obtain rfl := Except.ok.inj h
                  refine ⟨hfound, ?_, ?_⟩
                  · intro hmutating hbearer
                    simp only [hmutating, hbearer, Option.isNone_none, Bool.and_self,
                      Bool.true_and, decide_eq_true_eq, not_not, Bool.not_eq_true] at hcsrf horigin
                    exact ⟨hcsrf, horigin⟩
                  · intro hmust
                    simpa [hmust] using hlocked

/-- The one call on the paths that stay open. -/
theorem adminApp_unlocked {bodies : Bodies} {first view : View} {plan : Plan} {m : Mutation}
    (h : adminApp bodies session req first view = some plan) (hplan : plan = .ok (.ok m))
    (hpath : unlocked req.path = true) :
    ∃ old new, m.call = .changePassword session.username old new := by
  subst hplan
  have hcase : req.path = ["admin", "password"] ∨ req.path = ["admin", "session"] := by
    simpa [unlocked] using hpath
  rcases hcase with hp | hp
  · unfold adminApp at h
    rw [hp] at h
    cases hmethod : req.method with
    | post =>
        simp only [hmethod, Option.some.injEq] at h
        cases hbody : readBody (64 * 1024) bodies.passwordChange req with
        | error reply =>
            rw [changePassword, hbody] at h
            cases h
        | ok change =>
            rw [changePassword, hbody] at h
            cases h
            exact ⟨change.1, change.2, rfl⟩
    | get | head | put | delete | other =>
        simp only [hmethod] at h
        cases h
  · unfold adminApp at h
    rw [hp] at h
    cases hmethod : req.method with
    | get | head | post | put | delete | other =>
        simp only [hmethod] at h
        cases h

end Guard

section Steps

variable {ι : Type} [DecidableEq ι] {sha : HashInput → String} {len : AuditRecord → Nat}

/-- A record is appended, or the log is unhealthy. -/
theorem record_cases {log log' : AuditLog} {nr : NewRecord} {e : Append} {ok : Bool}
    (h : log.record sha len nr e = some (log', ok)) :
    log'.failOpen = log.failOpen ∧ log'.healthy = ok ∧
      ∃ new, log'.sink.acked = log.sink.acked ++ new ∧
        new.map (fun r => r.toNewRecord) = if ok then [nr] else [] := by
  simp only [AuditLog.record, Option.bind_eq_bind, Option.bind_eq_some_iff] at h
  obtain ⟨sink, happend, h⟩ := h
  obtain ⟨old, _, hsink⟩ := Option.map_eq_some_iff.mp happend
  have hacked : sink.acked = log.sink.acked ∨
      ∃ rec, rec.toNewRecord = nr ∧ sink.acked = log.sink.acked ++ [rec] := by
    subst hsink
    split
    · next sink' d _ =>
        unfold Audit.writeLine
        split
        · exact .inl rfl
        · exact .inr ⟨_, rfl, rfl⟩
    · exact .inl rfl
    · exact .inl rfl
  split at h
  · cases h
  · split at h
    · next hlonger =>
        cases h
        refine ⟨rfl, rfl, ?_⟩
        rcases hacked with hsame | ⟨rec, hrec, hnew⟩
        · rw [hsame] at hlonger
          exact absurd hlonger (Nat.lt_irrefl _)
        · exact ⟨[rec], hnew, by simp [hrec]⟩
    · next hnot =>
        cases h
        refine ⟨rfl, rfl, [], ?_, rfl⟩
        rcases hacked with hsame | ⟨rec, _, hnew⟩
        · rw [hsame, List.append_nil]
        · rw [hnew, List.length_append] at hnot
          exact absurd (Nat.lt_succ_self _) hnot

variable (bodies : Bodies) (reqs : ι → Request)

/-- A step of a request up to its call. -/
inductive Quiet (log : AuditLog) (i : ι) : Phase → Action ι → Phase → Prop where
  | refused {sessions : String → Option SessionInfo} {refusal : Refusal} :
      Quiet log i .asked (.guard i sessions) (.answered (.refused refusal))
  | admitted {sessions : String → Option SessionInfo} {session : SessionInfo}
      (h : adminGuard sessions (reqs i) = .ok session) :
      Quiet log i .asked (.guard i sessions) (.admitted session)
  | looked {session : SessionInfo} {view : View} :
      Quiet log i (.admitted session) (.look i view) (.looked session view)
  | answered {session : SessionInfo} {first view : View} {reply : Reply}
      (h : adminApp bodies session (reqs i) first view = some (.error reply)) :
      Quiet log i (.looked session first) (.plan i view) (.answered reply)
  | planned {session : SessionInfo} {first view : View} {behind : Except Reply Mutation}
      (h : adminApp bodies session (reqs i) first view = some (.ok behind)) :
      Quiet log i (.looked session first) (.plan i view) (.planned session behind)
  | behind {session : SessionInfo} {reply : Reply} :
      Quiet log i (.planned session (.error reply)) (.gate i) (.answered reply)
  | shut {session : SessionInfo} {behind : Except Reply Mutation} :
      Quiet log i (.planned session behind) (.gate i) (.answered (.refused .auditUnavailable))
  | gated {session : SessionInfo} {m : Mutation} (hopen : log.gate = true) :
      Quiet log i (.planned session (.ok m)) (.gate i) (.gated session m)
  | ready {session : SessionInfo} {m : Mutation} {view : View} :
      Quiet log i (.gated session m) (.before i view) (.ready session m (m.before view))

variable (sha len)

/-- What a step can do. -/
inductive Stepped (s : State ι) : Action ι → State ι → Prop where
  | quiet {i : ι} {a : Action ι} {p : Phase} (h : Quiet bodies reqs s.log i (s.phase i) a p) :
      Stepped s a (s.setPhase i p)
  | called {i : ι} {session : SessionInfo} {m : Mutation} {before : Option (Json Int)}
      (answer : (c : Call) → Except Failure c.Answer) (h : s.phase i = .ready session m before) :
      Stepped s (.call i answer)
        { s.setPhase i (.called session m before (answer m.call)) with
          calls := s.calls ++ [(i, ⟨session, m.call, answer m.call⟩)] }
  | concluded {i : ι} {session : SessionInfo} {m : Mutation} {before : Option (Json Int)}
      {result : Except Failure m.call.Answer} {view : View} {e : Append} {t : State ι}
      (h : s.phase i = .called session m before result)
      (ht : s.conclude sha len i (reqs i).source session m before result view e = some t) :
      Stepped s (.conclude i view e) t
  | bestEffort {event : Event} {e : Append} {p : AuditLog × Bool}
      (h : s.log.recordBestEffort sha len event.record e = some p) :
      Stepped s (.bestEffort event e) (s.noted none event.record p)

variable {sha len bodies reqs}

theorem stepped_of_step {s t : State ι} {a : Action ι}
    (h : step sha len bodies reqs s a = some t) : Stepped sha len bodies reqs s a t := by
  cases a with
  | guard i sessions =>
      simp only [step] at h
      split at h
      · next hphase =>
          split at h
          · obtain rfl := Option.some.inj h
            exact .quiet (by rw [hphase]; exact .refused)
          · next hguard =>
              obtain rfl := Option.some.inj h
              exact .quiet (by rw [hphase]; exact .admitted hguard)
      · cases h
  | look i view =>
      simp only [step] at h
      split at h
      · next hphase =>
          obtain rfl := Option.some.inj h
          exact .quiet (by rw [hphase]; exact .looked)
      · cases h
  | plan i view =>
      simp only [step] at h
      split at h
      · next hphase =>
          split at h
          · cases h
          · next hplan =>
              obtain rfl := Option.some.inj h
              exact .quiet (by rw [hphase]; exact .answered hplan)
          · next hplan =>
              obtain rfl := Option.some.inj h
              exact .quiet (by rw [hphase]; exact .planned hplan)
      · cases h
  | gate i =>
      simp only [step] at h
      split at h
      · next hphase =>
          split at h
          · next hopen =>
              split at h
              · obtain rfl := Option.some.inj h
                exact .quiet (by rw [hphase]; exact .behind)
              · obtain rfl := Option.some.inj h
                exact .quiet (by rw [hphase]; exact .gated hopen)
          · obtain rfl := Option.some.inj h
            exact .quiet (by rw [hphase]; exact .shut)
      · cases h
  | before i view =>
      simp only [step] at h
      split at h
      · next hphase =>
          obtain rfl := Option.some.inj h
          exact .quiet (by rw [hphase]; exact .ready)
      · cases h
  | call i answer =>
      simp only [step] at h
      split at h
      · next hphase =>
          obtain rfl := Option.some.inj h
          exact .called answer hphase
      · cases h
  | conclude i view e =>
      simp only [step] at h
      split at h
      · next hphase => exact .concluded hphase h
      · cases h
  | bestEffort event e =>
      obtain ⟨p, hp, rfl⟩ := Option.map_eq_some_iff.mp h
      exact .bestEffort hp

end Steps

section Ledger

variable {ι : Type}

/-- The calls of one request. -/
def State.callsOf [DecidableEq ι] (s : State ι) (i : ι) : List Made :=
  (s.calls.filter fun c => c.1 = i).map Prod.snd

/-- The records of one request among these. -/
def recordsOf [DecidableEq ι] (records : List (Option ι × NewRecord)) (i : ι) : List NewRecord :=
  (records.filter fun r => r.1 = some i).map Prod.snd

/-- A record that says who made a call, what about, and whether it did anything. -/
structure Describes (source : Option String) (made : Made) (r : NewRecord) : Prop where
  principal : r.principal = made.session.username
  role : r.role = roleText made.session.role
  session : r.session = some made.session.id
  source : r.source = source
  action : r.action = made.call.action
  target : r.target = made.call.target made.result
  outcome : r.outcome = "ok" ↔ made.call.took made.result = true

def Phase.idle : Phase → Bool
  | .called .. | .answered _ => false
  | _ => true

/-- What a request has come to, the calls it made, its records in the trail, and those
that were lost. -/
inductive Ledger (failOpen : Bool) (req : Request) :
    Phase → List Made → List NewRecord → List NewRecord → Prop where
  | idle {p : Phase} (h : p.idle = true) : Ledger failOpen req p [] [] []
  | turnedAway {reply : Reply} (h : reply.success = true → DryRun req) :
      Ledger failOpen req (.answered reply) [] [] []
  | called {session : SessionInfo} {m : Mutation} {before : Option (Json Int)}
      {result : Except Failure m.call.Answer} :
      Ledger failOpen req (.called session m before result) [⟨session, m.call, result⟩] [] []
  | recorded {made : Made} {r : NewRecord} {reply : Reply}
      (took : made.call.took made.result = true) (describes : Describes req.source made r)
      (success : reply.success = true) :
      Ledger failOpen req (.answered reply) [made] [r] []
  | unrecorded {made : Made} {r : NewRecord} {reply : Reply}
      (took : made.call.took made.result = true) (describes : Describes req.source made r)
      (shown : if failOpen then reply.success = true else reply = .refused .auditUnavailable) :
      Ledger failOpen req (.answered reply) [made] [] [r]
  | noted {made : Made} {r : NewRecord} {refusal : Refusal}
      (failed : made.call.took made.result = false) (describes : Describes req.source made r) :
      Ledger failOpen req (.answered (.refused refusal)) [made] [r] []
  | unnoted {made : Made} {r : NewRecord} {refusal : Refusal}
      (failed : made.call.took made.result = false) (describes : Describes req.source made r) :
      Ledger failOpen req (.answered (.refused refusal)) [made] [] [r]
  | silent {made : Made} {refusal : Refusal}
      (failed : made.call.took made.result = false)
      (silent : made.call.silent made.result = true) :
      Ledger failOpen req (.answered (.refused refusal)) [made] [] []

/-- The authority for a call: what the guard found, and what the request read before it
was let to the call. -/
structure Authorized (acts : List (Action ι)) (req : Request) (i : ι) (session : SessionInfo)
    (c : Call) : Prop where
  granted : ∃ sessions first view,
    .guard i sessions ∈ acts ∧ .look i first ∈ acts ∧ .plan i view ∈ acts ∧
      Admitted sessions req session ∧
      Windows.allows session.role (neededFor first view c) = true
  actor : ∀ name ∈ c.actor, name = session.username
  rotation : session.mustChangePassword = true →
    ∃ old new, c = .changePassword session.username old new

variable (bodies : Bodies) (reqs : ι → Request)

def Granted (acts : List (Action ι)) (i : ι) (session : SessionInfo) : Prop :=
  ∃ sessions, .guard i sessions ∈ acts ∧ adminGuard sessions (reqs i) = .ok session

def Planned (acts : List (Action ι)) (i : ι) (session : SessionInfo)
    (behind : Except Reply Mutation) : Prop :=
  ∃ sessions first view, .guard i sessions ∈ acts ∧ .look i first ∈ acts ∧
    .plan i view ∈ acts ∧ adminGuard sessions (reqs i) = .ok session ∧
      adminApp bodies session (reqs i) first view = some (.ok behind)

/-- How a request got where it is. -/
def Held (acts : List (Action ι)) (i : ι) : Phase → Prop
  | .asked | .answered _ => True
  | .admitted session => Granted reqs acts i session
  | .looked session first => Granted reqs acts i session ∧ .look i first ∈ acts
  | .planned session behind => Planned bodies reqs acts i session behind
  | .gated session m | .ready session m _ | .called session m _ _ =>
      Planned bodies reqs acts i session (.ok m)

variable {bodies reqs} {acts : List (Action ι)} {i : ι} {session : SessionInfo} {m : Mutation}

theorem Planned.sound (h : Planned bodies reqs acts i session (.ok m)) :
    ∃ first view, Sound session first view m := by
  obtain ⟨_, first, view, _, _, _, _, happ⟩ := h
  exact ⟨first, view, (adminApp_sound happ).mutation m rfl⟩

theorem Planned.authorized (h : Planned bodies reqs acts i session (.ok m)) :
    Authorized acts (reqs i) i session m.call := by
  obtain ⟨sessions, first, view, hguard, hlook, hplan, hsession, happ⟩ := h
  have hadmitted := adminGuard_admitted hsession
  have hsound := (adminApp_sound happ).mutation m rfl
  refine ⟨⟨sessions, first, view, hguard, hlook, hplan, hadmitted, hsound.allowed⟩,
    hsound.actor, ?_⟩
  intro hmust
  exact adminApp_unlocked happ rfl (hadmitted.rotated hmust)

theorem Authorized.mono {c : Call} {req : Request} (h : Authorized acts req i session c)
    (a : Action ι) : Authorized (acts ++ [a]) req i session c := by
  obtain ⟨⟨sessions, first, view, hguard, hlook, hplan, hrest⟩, hactor, hrotation⟩ := h
  exact ⟨⟨sessions, first, view, List.mem_append_left _ hguard, List.mem_append_left _ hlook,
    List.mem_append_left _ hplan, hrest⟩, hactor, hrotation⟩

theorem Granted.mono (h : Granted reqs acts i session) (a : Action ι) :
    Granted reqs (acts ++ [a]) i session := by
  obtain ⟨sessions, hguard, hsession⟩ := h
  exact ⟨sessions, List.mem_append_left _ hguard, hsession⟩

theorem Planned.mono {behind : Except Reply Mutation}
    (h : Planned bodies reqs acts i session behind) (a : Action ι) :
    Planned bodies reqs (acts ++ [a]) i session behind := by
  obtain ⟨sessions, first, view, hguard, hlook, hplan, hrest⟩ := h
  exact ⟨sessions, first, view, List.mem_append_left _ hguard, List.mem_append_left _ hlook,
    List.mem_append_left _ hplan, hrest⟩

theorem Held.mono {p : Phase} (h : Held bodies reqs acts i p) (a : Action ι) :
    Held bodies reqs (acts ++ [a]) i p := by
  cases p with
  | asked | answered reply => trivial
  | admitted session => exact Granted.mono h a
  | looked session first => exact ⟨h.1.mono a, List.mem_append_left _ h.2⟩
  | planned session behind => exact Planned.mono h a
  | gated session m | ready session m before | called session m before result =>
      exact Planned.mono h a

/-- A step up to the call keeps account of what was found. -/
theorem Held.quiet {log : AuditLog} {p q : Phase} {a : Action ι} (h : Held bodies reqs acts i p)
    (hq : Quiet bodies reqs log i p a q) : Held bodies reqs (acts ++ [a]) i q := by
  have hlast : a ∈ acts ++ [a] := List.mem_append_right _ (List.mem_singleton_self a)
  cases hq with
  | refused | answered _ | behind | shut => trivial
  | admitted hsession => exact ⟨_, hlast, hsession⟩
  | looked => exact ⟨Granted.mono h _, hlast⟩
  | planned happ =>
      obtain ⟨⟨sessions, hguard, hsession⟩, hlook⟩ := h
      exact ⟨sessions, _, _, List.mem_append_left _ hguard, List.mem_append_left _ hlook, hlast,
        hsession, happ⟩
  | gated _ => exact Planned.mono h _
  | ready => exact Planned.mono h _

/-- A request that has made its call has nothing in the trail yet. -/
theorem Ledger.of_called {failOpen : Bool} {req : Request} {session : SessionInfo} {m : Mutation}
    {before : Option (Json Int)} {result : Except Failure m.call.Answer} {made : List Made}
    {records lost : List NewRecord}
    (h : Ledger failOpen req (.called session m before result) made records lost) :
    made = [⟨session, m.call, result⟩] ∧ records = [] ∧ lost = [] := by
  cases h with
  | idle hidle => cases hidle
  | called => exact ⟨rfl, rfl, rfl⟩

theorem Ledger.of_idle {failOpen : Bool} {req : Request} {p : Phase} {made : List Made}
    {records lost : List NewRecord} (h : Ledger failOpen req p made records lost)
    (hidle : p.idle = true) : made = [] ∧ records = [] ∧ lost = [] := by
  cases h with
  | idle _ => exact ⟨rfl, rfl, rfl⟩
  | turnedAway _ | called | recorded _ _ _ | unrecorded _ _ _ | noted _ _ | unnoted _ _
  | silent _ _ => cases hidle

/-- A call whose record was written, or lost. -/
theorem Ledger.ended {failOpen ok : Bool} (req : Request) {made : Made} {nr : NewRecord}
    {reply : Reply} (hdesc : Describes req.source made nr)
    (hcase : made.call.took made.result = true ∧
        (if ok || failOpen then reply.success = true else reply = .refused .auditUnavailable) ∨
      made.call.took made.result = false ∧ ∃ refusal, reply = .refused refusal) :
    Ledger failOpen req (.answered reply) [made] (if ok then [nr] else [])
      (if ok then [] else [nr]) := by
  cases ok with
  | true =>
      rcases hcase with ⟨htook, hshown⟩ | ⟨hfailed, refusal, rfl⟩
      · exact .recorded htook hdesc hshown
      · exact .noted hfailed hdesc
  | false =>
      rcases hcase with ⟨htook, hshown⟩ | ⟨hfailed, refusal, rfl⟩
      · exact .unrecorded htook hdesc hshown
      · exact .unnoted hfailed hdesc

/-- Up to its call, a request owes nothing. -/
theorem Ledger.quiet {failOpen : Bool} {log : AuditLog} {p q : Phase} {a : Action ι}
    {made : List Made} {records lost : List NewRecord}
    (h : Ledger failOpen (reqs i) p made records lost) (hheld : Held bodies reqs acts i p)
    (hq : Quiet bodies reqs log i p a q) : Ledger failOpen (reqs i) q made records lost := by
  cases hq with
  | refused =>
      obtain ⟨rfl, rfl, rfl⟩ := h.of_idle rfl
      exact .turnedAway nofun
  | admitted _ | looked | planned _ | gated _ | ready =>
      obtain ⟨rfl, rfl, rfl⟩ := h.of_idle rfl
      exact .idle rfl
  | answered happ =>
      obtain ⟨rfl, rfl, rfl⟩ := h.of_idle rfl
      exact .turnedAway ((adminApp_sound happ).answer _ (.inl rfl))
  | behind =>
      obtain ⟨rfl, rfl, rfl⟩ := h.of_idle rfl
      obtain ⟨_, _, _, _, _, _, _, happ⟩ := hheld
      exact .turnedAway ((adminApp_sound happ).answer _ (.inr rfl))
  | shut =>
      obtain ⟨rfl, rfl, rfl⟩ := h.of_idle rfl
      exact .turnedAway nofun

theorem noted_phase (s : State ι) (who : Option ι) (nr : NewRecord) (p : AuditLog × Bool) :
    (s.noted who nr p).phase = s.phase ∧ (s.noted who nr p).calls = s.calls ∧
      (s.noted who nr p).log = p.1 := by
  obtain ⟨log, ok⟩ := p
  cases ok <;> exact ⟨rfl, rfl, rfl⟩

/-- Past the gate, but not yet at its call. -/
def Phase.pastGate : Phase → Bool
  | .gated .. | .ready .. => true
  | _ => false

theorem Quiet.pastGate {log : AuditLog} {i : ι} {p q : Phase} {a : Action ι}
    (h : Quiet bodies reqs log i p a q) (hshut : log.gate = false) (hq : q.pastGate = true) :
    p.pastGate = true := by
  cases h with
  | refused | admitted _ | looked | answered _ | planned _ | behind | shut => cases hq
  | gated hopen =>
      rw [hshut] at hopen
      cases hopen
  | ready => rfl

end Ledger

section Runs

variable {ι : Type} [DecidableEq ι] {sha : HashInput → String} {len : AuditRecord → Nat}
  {bodies : Bodies} {reqs : ι → Request}

/-- The state of the ledger in a run from a log on. -/
structure Accounts (bodies : Bodies) (reqs : ι → Request) (log : AuditLog) (s : State ι)
    (acts : List (Action ι)) : Prop where
  ledger : ∀ i, Ledger log.failOpen (reqs i) (s.phase i) (s.callsOf i) (recordsOf s.trail i)
    (recordsOf s.lost i)
  held : ∀ i, Held bodies reqs acts i (s.phase i)
  authorized : ∀ c ∈ s.calls, Authorized acts (reqs c.1) c.1 c.2.session c.2.call
  failOpen : s.log.failOpen = log.failOpen
  trail : ∃ new, s.log.sink.acked = log.sink.acked ++ new ∧
    new.map (fun r => r.toNewRecord) = s.trail.map Prod.snd

theorem recordsOf_concat (records : List (Option ι × NewRecord)) (who : Option ι) (nr : NewRecord)
    (i : ι) : recordsOf (records ++ [(who, nr)]) i =
      recordsOf records i ++ if who = some i then [nr] else [] := by
  by_cases h : who = some i <;> simp [recordsOf, h]

theorem callsOf_called (s : State ι) (i j : ι) (p : Phase) (made : Made) :
    ({ s.setPhase i p with calls := s.calls ++ [(i, made)] } : State ι).callsOf j =
      s.callsOf j ++ if i = j then [made] else [] := by
  by_cases h : i = j <;> simp [State.callsOf, h]

/-- What was noted, by who it is of. -/
theorem recordsOf_noted (s : State ι) (who : Option ι) (nr : NewRecord) (p : AuditLog × Bool)
    (i : ι) :
    recordsOf (s.noted who nr p).trail i =
        recordsOf s.trail i ++ (if p.2 = true ∧ who = some i then [nr] else []) ∧
      recordsOf (s.noted who nr p).lost i =
        recordsOf s.lost i ++ (if p.2 = false ∧ who = some i then [nr] else []) := by
  obtain ⟨log, ok⟩ := p
  cases ok <;> simp [State.noted, recordsOf_concat]

/-- The trail is what was acknowledged. -/
theorem Accounts.noted {log : AuditLog} {s : State ι} {acts : List (Action ι)}
    (h : Accounts bodies reqs log s acts) (who : Option ι) (nr : NewRecord) {p : AuditLog × Bool}
    (hfail : p.1.failOpen = s.log.failOpen)
    (hnew : ∃ new, p.1.sink.acked = s.log.sink.acked ++ new ∧
      new.map (fun r => r.toNewRecord) = if p.2 then [nr] else []) :
    (s.noted who nr p).log.failOpen = log.failOpen ∧
      ∃ new, (s.noted who nr p).log.sink.acked = log.sink.acked ++ new ∧
        new.map (fun r => r.toNewRecord) = (s.noted who nr p).trail.map Prod.snd := by
  obtain ⟨new, hacked, hmap⟩ := hnew
  obtain ⟨before, hbefore, hold⟩ := h.trail
  rw [(noted_phase s who nr p).2.2, hfail, hacked, hbefore]
  refine ⟨h.failOpen, before ++ new, List.append_assoc _ _ _, ?_⟩
  rw [List.map_append, hold, hmap]
  obtain ⟨log', ok⟩ := p
  cases ok <;> simp [State.noted]

/-- How a sound mutation ends: with its record written or lost, or with nothing to say. -/
theorem conclude_cases {s t : State ι} {i : ι} {source : Option String} {session : SessionInfo}
    {m : Mutation} {before : Option (Json Int)} {result : Except Failure m.call.Answer}
    {first looked view : View} {e : Append} (hsound : Sound session first looked m)
    (h : s.conclude sha len i source session m before result view e = some t) :
    (∃ nr p reply, s.log.record sha len nr e = some p ∧
      t = (s.noted (some i) nr p).setPhase i (.answered reply) ∧
      Describes source ⟨session, m.call, result⟩ nr ∧
      (m.call.took result = true ∧
          (if p.2 || s.log.failOpen then reply.success = true
            else reply = .refused .auditUnavailable) ∨
        m.call.took result = false ∧ ∃ refusal, reply = .refused refusal)) ∨
    ∃ refusal, t = s.setPhase i (.answered (.refused refusal)) ∧
      m.call.took result = false ∧ m.call.silent result = true := by
  have hfits := hsound.concludes result view
  unfold State.conclude at h
  cases hend : m.conclude result view with
  | recorded target after status body =>
      rw [hend] at hfits
      obtain ⟨htook, htarget, hstatus⟩ := hfits
      simp only [hend] at h
      obtain ⟨p, hp, rfl⟩ := Option.map_eq_some_iff.mp h
      refine .inl ⟨_, p, _, hp, rfl, ⟨rfl, rfl, rfl, rfl, hsound.action, htarget, ?_⟩,
        .inl ⟨htook, ?_⟩⟩
      · exact ⟨fun _ => htook, fun _ => rfl⟩
      · split
        · exact decide_eq_true hstatus
        · rfl
  | noted target after outcome refusal =>
      rw [hend] at hfits
      obtain ⟨hfailed, _, htarget, houtcome⟩ := hfits
      simp only [hend] at h
      obtain ⟨p, hp, rfl⟩ := Option.map_eq_some_iff.mp h
      refine .inl ⟨_, p, _, hp, rfl, ⟨rfl, rfl, rfl, rfl, hsound.action, htarget, ?_⟩,
        .inr ⟨hfailed, refusal, rfl⟩⟩
      constructor
      · exact fun hok => absurd hok houtcome
      · intro htook
        rw [hfailed] at htook
        cases htook
  | unrecorded refusal =>
      rw [hend] at hfits
      simp only [hend] at h
      exact .inr ⟨refusal, (Option.some.inj h).symm, hfits⟩

theorem setPhase_self (s : State ι) (i : ι) (p : Phase) : (s.setPhase i p).phase i = p := by
  simp [State.setPhase]

theorem setPhase_other (s : State ι) {i j : ι} (p : Phase) (h : j ≠ i) :
    (s.setPhase i p).phase j = s.phase j := by
  simp [State.setPhase, h]

section Steps

variable {log : AuditLog} {s t : State ι} {acts : List (Action ι)} {i : ι}

/-- What held of the others still does. -/
theorem Accounts.heldOthers (h : Accounts bodies reqs log s acts) (a : Action ι) {p : Phase}
    (hphase : ∀ j, j ≠ i → t.phase j = s.phase j) (hself : t.phase i = p)
    (hp : Held bodies reqs (acts ++ [a]) i p) (j : ι) :
    Held bodies reqs (acts ++ [a]) j (t.phase j) := by
  by_cases hj : j = i
  · subst hj
    rw [hself]
    exact hp
  · rw [hphase j hj]
    exact (h.held j).mono a

theorem Accounts.quiet {a : Action ι} {p : Phase} (h : Accounts bodies reqs log s acts)
    (hq : Quiet bodies reqs s.log i (s.phase i) a p) :
    Accounts bodies reqs log (s.setPhase i p) (acts ++ [a]) := by
  refine ⟨?_, ?_, fun c hc => (h.authorized c hc).mono a, h.failOpen, h.trail⟩
  · intro j
    by_cases hj : j = i
    · subst hj
      rw [setPhase_self]
      exact (h.ledger j).quiet (h.held j) hq
    · rw [setPhase_other s p hj]
      exact h.ledger j
  · exact h.heldOthers a (fun j hj => setPhase_other s p hj) (setPhase_self s i p)
      ((h.held i).quiet hq)

theorem Accounts.called {session : SessionInfo} {m : Mutation} {before : Option (Json Int)}
    (answer : (c : Call) → Except Failure c.Answer) (h : Accounts bodies reqs log s acts)
    (hphase : s.phase i = .ready session m before) :
    Accounts bodies reqs log
      { s.setPhase i (.called session m before (answer m.call)) with
        calls := s.calls ++ [(i, ⟨session, m.call, answer m.call⟩)] }
      (acts ++ [.call i answer]) := by
  have hheld := h.held i
  have hledger := h.ledger i
  rw [hphase] at hheld hledger
  have hplanned : Planned bodies reqs acts i session (.ok m) := hheld
  refine ⟨?_, ?_, ?_, h.failOpen, h.trail⟩
  · intro j
    rw [callsOf_called]
    change Ledger _ _ ((s.setPhase i (.called session m before (answer m.call))).phase j) _
      (recordsOf s.trail j) (recordsOf s.lost j)
    by_cases hj : j = i
    · subst hj
      obtain ⟨hmade, hrecords, hlost⟩ := hledger.of_idle rfl
      rw [setPhase_self, hmade, hrecords, hlost, if_pos rfl, List.nil_append]
      exact .called
    · rw [setPhase_other s _ hj, if_neg (Ne.symm hj), List.append_nil]
      exact h.ledger j
  · exact h.heldOthers _ (fun j hj => setPhase_other s _ hj) (setPhase_self s i _)
      (Planned.mono hplanned _)
  · intro c hc
    rcases List.mem_append.mp hc with hold | hnew
    · exact (h.authorized c hold).mono _
    · rw [List.mem_singleton.mp hnew]
      exact hplanned.authorized.mono _

/-- One record more or one more lost, of this request. -/
theorem Accounts.concluded {session : SessionInfo} {m : Mutation} {before : Option (Json Int)}
    {result : Except Failure m.call.Answer} {view : View} {e : Append}
    (h : Accounts bodies reqs log s acts)
    (hphase : s.phase i = .called session m before result)
    (ht : s.conclude sha len i (reqs i).source session m before result view e = some t) :
    Accounts bodies reqs log t (acts ++ [.conclude i view e]) := by
  have hheld := h.held i
  have hledger := h.ledger i
  rw [hphase] at hheld hledger
  obtain ⟨first, looked, hsound⟩ := Planned.sound hheld
  obtain ⟨hmade, hrecords, hlost⟩ := hledger.of_called
  have hauthorized : ∀ c ∈ s.calls,
      Authorized (acts ++ [.conclude i view e]) (reqs c.1) c.1 c.2.session c.2.call :=
    fun c hc => (h.authorized c hc).mono _
  rcases conclude_cases hsound ht with ⟨nr, p, reply, hp, rfl, hdesc, hcase⟩ | ⟨refusal, rfl, hno⟩
  · obtain ⟨hfail, _, hnew⟩ := record_cases hp
    obtain ⟨hopen, htrail⟩ := h.noted (some i) nr hfail hnew
    have hsame := noted_phase s (some i) nr p
    refine ⟨?_, ?_, ?_, hopen, htrail⟩
    · intro j
      have hcalls : ((s.noted (some i) nr p).setPhase i (.answered reply)).callsOf j =
          s.callsOf j := by
        rw [State.callsOf, State.callsOf, State.setPhase, hsame.2.1]
      change Ledger _ _ _ _ (recordsOf (s.noted (some i) nr p).trail j)
        (recordsOf (s.noted (some i) nr p).lost j)
      rw [hcalls, (recordsOf_noted s (some i) nr p j).1, (recordsOf_noted s (some i) nr p j).2]
      by_cases hj : j = i
      · subst hj
        rw [setPhase_self, hmade, hrecords, hlost]
        rw [h.failOpen] at hcase
        have hend := Ledger.ended (reqs j) hdesc hcase
        simp only [List.nil_append, and_true]
        obtain ⟨log', ok⟩ := p
        cases ok <;> exact hend
      · have hother : (some i : Option ι) ≠ some j := fun he => hj (Option.some.inj he).symm
        rw [setPhase_other _ _ hj, hsame.1]
        simp only [hother, and_false, if_false, List.append_nil]
        exact h.ledger j
    · refine h.heldOthers _ ?_ (setPhase_self _ i _) trivial
      intro j hj
      rw [setPhase_other _ _ hj, hsame.1]
    · intro c hc
      exact hauthorized c (hsame.2.1 ▸ hc)
  · refine ⟨?_, ?_, hauthorized, h.failOpen, h.trail⟩
    · intro j
      by_cases hj : j = i
      · subst hj
        rw [setPhase_self]
        change Ledger _ _ _ (s.callsOf j) (recordsOf s.trail j) (recordsOf s.lost j)
        rw [hmade, hrecords, hlost]
        exact .silent hno.1 hno.2
      · rw [setPhase_other _ _ hj]
        exact h.ledger j
    · exact h.heldOthers _ (fun j hj => setPhase_other s _ hj) (setPhase_self s i _) trivial

theorem Accounts.bestEffort {event : Event} {e : Append} {p : AuditLog × Bool}
    (h : Accounts bodies reqs log s acts)
    (hp : s.log.recordBestEffort sha len event.record e = some p) :
    Accounts bodies reqs log (s.noted none event.record p) (acts ++ [.bestEffort event e]) := by
  obtain ⟨q, hq, rfl⟩ := Option.map_eq_some_iff.mp hp
  obtain ⟨hfail, _, hnew⟩ := record_cases hq
  have hsame := noted_phase s none event.record
    (if q.2 then q else ({ q.1 with unrecordedTotal := q.1.unrecordedTotal + 1 }, false))
  obtain ⟨hopen, htrail⟩ := h.noted none event.record
    (p := if q.2 then q else ({ q.1 with unrecordedTotal := q.1.unrecordedTotal + 1 }, false))
    (by split <;> exact hfail) (by
      obtain ⟨log', ok⟩ := q
      cases ok <;> exact hnew)
  refine ⟨?_, ?_, ?_, hopen, htrail⟩
  · intro j
    rw [hsame.1, State.callsOf, hsame.2.1, (recordsOf_noted _ _ _ _ _).1,
      (recordsOf_noted _ _ _ _ _).2]
    simp only [reduceCtorEq, and_false, if_false, List.append_nil]
    exact h.ledger j
  · intro j
    rw [hsame.1]
    exact (h.held j).mono _
  · intro c hc
    exact (h.authorized c (hsame.2.1 ▸ hc)).mono _

theorem Accounts.step {a : Action ι} (h : Accounts bodies reqs log s acts)
    (hs : step sha len bodies reqs s a = some t) : Accounts bodies reqs log t (acts ++ [a]) := by
  cases stepped_of_step hs with
  | quiet hq => exact h.quiet hq
  | called answer hphase => exact h.called answer hphase
  | concluded hphase ht => exact h.concluded hphase ht
  | bestEffort hp => exact h.bestEffort hp

end Steps

/-- Every run keeps its accounts. -/
theorem accounts_of_run {log : AuditLog} {s : State ι} {acts : List (Action ι)}
    (run : Run (step sha len bodies reqs) (fun _ _ => True) (start log) acts s) :
    Accounts bodies reqs log s acts := by
  refine run.invariant_trace (P := fun s acts => Accounts bodies reqs log s acts)
    (fun _ _ _ _ h _ hs => h.step hs) ?_
  refine ⟨fun _ => .idle rfl, fun _ => trivial, ?_, rfl, [], (List.append_nil _).symm, rfl⟩
  intro c hc
  cases hc

/-- Every call that a run makes has authority: its session is the one that the guard
found for the secret presented, past the checks of a browser and the rotation of its
password, and its role is enough for the call as the request found the windows. -/
theorem calls_authorized (log : AuditLog) (acts : List (Action ι)) (s : State ι)
    (run : Run (step sha len bodies reqs) (fun _ _ => True) (start log) acts s) :
    ∀ c ∈ s.calls, Authorized acts (reqs c.1) c.1 c.2.session c.2.call :=
  (accounts_of_run run).authorized

/-- In every run each request keeps to the ledger, and the trail is what the log has
acknowledged. -/
theorem calls_accounted (log : AuditLog) (acts : List (Action ι)) (s : State ι)
    (run : Run (step sha len bodies reqs) (fun _ _ => True) (start log) acts s) :
    (∀ i, Ledger log.failOpen (reqs i) (s.phase i) (s.callsOf i) (recordsOf s.trail i)
      (recordsOf s.lost i)) ∧
    ∃ new, s.log.sink.acked = log.sink.acked ++ new ∧
      new.map (fun r => r.toNewRecord) = s.trail.map Prod.snd :=
  ⟨(accounts_of_run run).ledger, (accounts_of_run run).trail⟩

def noBodies : Bodies where
  retentionSet _ := .error "not used"
  lastCacheSet _ := .error "not used"
  tableCreate _ := .error "not used"
  rollupSet _ := .error "not used"
  deleteRequest _ := .error "not used"
  configSet _ := .error "not used"
  tokenIssue _ := .error "not used"
  certGrants _ := .error "not used"
  passwordChange _ := .error "not used"

def emptyView : View :=
  ⟨[], [], [], fun _ => none, fun _ _ _ _ => .error ⟨"not used", false⟩, 0, "2025-01-01T00:00:00Z"⟩

def dropRequest (secret : String) : Request where
  method := .delete
  path := ["admin", "tables", "poc", "metrics"]
  query := []
  headers := [("authorization", ("Bearer " ++ secret).toList)]
  body := []
  source := some "127.0.0.1"

/-- An admin and an operator want the same table dropped. -/
def dropRequests (byAdmin : Bool) : Request := dropRequest (if byAdmin then "a" else "o")

def twoSessions (secret : String) : Option SessionInfo :=
  if secret = "a" then some ⟨"root", .admin, false, "c1", "s1"⟩
  else if secret = "o" then some ⟨"ops", .operator, false, "c2", "s2"⟩
  else none

def logWith (healthy : Bool) : AuditLog :=
  ⟨"n1", false, healthy, 0, 0,
    ⟨⟨[], some ⟨[], 0⟩⟩, some ⟨.default, .live, 1, Audit.genesis, 0, 0⟩, []⟩⟩

def prevAndTime (input : HashInput) : String := input.prevHash ++ input.ts

def hundredBytes (_ : AuditRecord) : Nat := 100

def noSuchTable (c : Call) : Except Failure c.Answer := .error ⟨"table does not exist", false⟩

def written : Append := ⟨"2025-01-01T00:00:00Z", 0, .never, []⟩

def twoDrops : List (Action Bool) :=
  [.guard false twoSessions, .guard true twoSessions, .look false emptyView, .look true emptyView,
    .plan false emptyView, .plan true emptyView, .gate true, .before true emptyView,
    .call true noSuchTable, .conclude true emptyView written]

theorem twoDrops_run : ∃ s,
    Run (step prevAndTime hundredBytes noBodies dropRequests) (fun _ _ => True)
      (start (logWith true)) twoDrops s :=
  ⟨_, .cons trivial rfl (.cons trivial rfl (.cons trivial rfl (.cons trivial rfl
    (.cons trivial rfl (.cons trivial rfl (.cons trivial rfl (.cons trivial rfl
      (.cons trivial rfl (.cons trivial rfl (.nil _))))))))))⟩

theorem twoDrops_authorized : ∃ s,
    Run (step prevAndTime hundredBytes noBodies dropRequests) (fun _ _ => True)
      (start (logWith true)) twoDrops s ∧
    ∀ c ∈ s.calls, Authorized twoDrops (dropRequests c.1) c.1 c.2.session c.2.call := by
  obtain ⟨s, run⟩ := twoDrops_run
  exact ⟨s, run, calls_authorized (logWith true) twoDrops s run⟩

theorem twoDrops_accounted : ∃ s,
    Run (step prevAndTime hundredBytes noBodies dropRequests) (fun _ _ => True)
      (start (logWith true)) twoDrops s ∧
    ∀ i, Ledger false (dropRequests i) (s.phase i) (s.callsOf i) (recordsOf s.trail i)
      (recordsOf s.lost i) := by
  obtain ⟨s, run⟩ := twoDrops_run
  exact ⟨s, run, (calls_accounted (logWith true) twoDrops s run).1⟩

end Runs

end TimeLake.Admin.Plane
