import TimeLake.Admin.Retention
import TimeLake.Auth.Principals
import TimeLake.Library.AssocMap
import TimeLake.Library.Run

/-!
Who may shorten a retention window (`retention_set`, `retention_delete`). A set request
reads the policies, decides from what it read which role it needs, and only then has the
engine write the policy; other requests run in between. What a table keeps is decided by
the policy of its database, else by the one of `*`, and no policy keeps everything.
-/

namespace TimeLake.Admin.Windows

open TimeLake.Auth (Role)
open TimeLake.Cluster
open TimeLake.Ingest
open TimeLake.Library

section Request

/-- `Role::allows`, roles being ordered as they are declared. -/
def allows (role needed : Role) : Bool :=
  match role, needed with
  | .admin, _ => true
  | .operator, .admin => false
  | .operator, _ => true
  | .viewer, .viewer => true
  | .viewer, _ => false

structure RetentionSet where
  db : Option String
  table : String
  duration : String

inductive SetError where
  | emptyTable
  | dbRequired
  | badDuration (duration : String)
  deriving DecidableEq, Repr

/-- The database, the table and the window that a request names. -/
def RetentionSet.named (set : RetentionSet) : Except SetError (String × String × Nat) :=
  let table := trim set.table.toList
  if table = [] then .error .emptyTable
  else
    match (set.db.map fun db => trim db.toList).filter (· ≠ []) with
    | none => .error .dbRequired
    | some db =>
        match parseDurationSecs set.duration with
        | none => .error (.badDuration set.duration)
        | some seconds => .ok (String.ofList db, String.ofList table, seconds)

/-- A policy for every database where so far only single ones had any. -/
def wideningScope (policies : List RetentionPolicy) (db table : String)
    (current : Option Nat) : Bool :=
  db = retentionAnyDb && current.isNone &&
    policies.any fun p => p.table = table && p.db ≠ retentionAnyDb

def destructive (seconds : Nat) (current : Option Nat) (widening : Bool) : Bool :=
  (match current with
    | some existing => decide (seconds < existing)
    | none => true) || widening

def neededRole (destructive : Bool) : Role :=
  if destructive then .admin else .operator

end Request

section Machine

/-- How far a set request has come. -/
inductive Stage where
  | asked
  | current (seconds : Option Nat)
  | scoped (seconds : Option Nat) (widening : Bool)
  | admitted (seconds : Option Nat)
  deriving DecidableEq, Repr

structure Call where
  role : Role
  db : String
  table : String
  seconds : Nat
  stage : Stage
  deriving DecidableEq, Repr

structure State where
  policies : List RetentionPolicy
  calls : AssocMap Nat Call

inductive Action where
  | request (k : Nat) (role : Role) (set : RetentionSet)
  | readCurrent (k : Nat)
  | readScope (k : Nat)
  | check (k : Nat)
  | apply (k : Nat)
  | abandon (k : Nat)
  | delete (role : Role) (db table : String)

/-- What is configured for this very database and table. -/
def exactWindow (policies : List RetentionPolicy) (db table : String) : Option Nat :=
  (findPolicy policies db table).map (·.seconds)

/-- How long a table keeps its rows; nothing where it keeps them for ever. -/
def windowOf (policies : List RetentionPolicy) (db table : String) : Option Nat :=
  (policyOf policies db table).map (·.seconds)

def State.put (s : State) (k : Nat) (call : Call) : State :=
  { s with calls := s.calls.insert k call }

def State.drop (s : State) (k : Nat) : State :=
  { s with calls := s.calls.erase k }

/-- A request that is malformed or not allowed changes nothing. -/
def step (s : State) : Action → Option State
  | .request k role set =>
      match s.calls.lookup k, set.named with
      | some _, _ => none
      | none, .error _ => some s
      | none, .ok (db, table, seconds) => some (s.put k ⟨role, db, table, seconds, .asked⟩)
  | .readCurrent k => do
      let call ← s.calls.lookup k
      match call.stage with
      | .asked =>
          some (s.put k { call with
            stage := .current (exactWindow s.policies call.db call.table) })
      | _ => none
  | .readScope k => do
      let call ← s.calls.lookup k
      match call.stage with
      | .current seconds =>
          some (s.put k { call with
            stage := .scoped seconds (wideningScope s.policies call.db call.table seconds) })
      | _ => none
  | .check k => do
      let call ← s.calls.lookup k
      match call.stage with
      | .scoped seconds widening =>
          if allows call.role (neededRole (destructive call.seconds seconds widening)) then
            some (s.put k { call with stage := .admitted seconds })
          else some (s.drop k)
      | _ => none
  | .apply k => do
      let call ← s.calls.lookup k
      match call.stage with
      | .admitted _ =>
          some { s.drop k with
            policies := putPolicy ⟨call.db, call.table, call.seconds⟩ s.policies }
      | _ => none
  | .abandon k => do
      let _ ← s.calls.lookup k
      some (s.drop k)
  | .delete role db table =>
      if allows role .admin then some { s with policies := dropPolicy db table s.policies }
      else some s

def start (policies : List RetentionPolicy) : State := ⟨policies, ∅⟩

/-- The role of the session that a step is taken for. -/
def State.actor (s : State) : Action → Option Role
  | .request _ role _ => some role
  | .readCurrent k => (s.calls.lookup k).map (·.role)
  | .readScope k => (s.calls.lookup k).map (·.role)
  | .check k => (s.calls.lookup k).map (·.role)
  | .apply k => (s.calls.lookup k).map (·.role)
  | .abandon k => (s.calls.lookup k).map (·.role)
  | .delete role _ _ => some role

/-- The policy that a step writes or removes. -/
def State.target (s : State) : Action → Option (String × String)
  | .apply k => (s.calls.lookup k).map fun call => (call.db, call.table)
  | .delete role db table => if allows role .admin then some (db, table) else none
  | _ => none

end Machine

section Statement

/-- Rows that were kept are kept no longer. -/
def Shortens : Option Nat → Option Nat → Prop
  | _, none => False
  | none, some _ => True
  | some before, some after => after < before

/-- A step that is not an admin's shortens no window. -/
def KeepsWindows (s : State) (a : Action) (t : State) : Prop :=
  s.actor a ≠ some .admin → ∀ db table,
    ¬ Shortens (windowOf s.policies db table) (windowOf t.policies db table)

/-- When the policy of a request below admin is written, the table it names is governed,
and not longer than the request asks for. -/
def Governed (s : State) : Action → Prop
  | .apply k =>
      match s.calls.lookup k with
      | some call =>
          call.role = .admin ∨ ¬ Shortens (windowOf s.policies call.db call.table) call.seconds
      | none => True
  | _ => True

/-- No policy is written or removed between the reads of another request for the same
database and table, if that one is below admin, and its own write. -/
def Undisturbed (s : State) (a : Action) : Prop :=
  ∀ pair, s.target a = some pair → ∀ j call, s.calls.lookup j = some call →
    call.role ≠ .admin → (call.db, call.table) = pair → call.stage ≠ .asked → a = .apply j

end Statement

section Steps

theorem shortens_irrefl (window : Option Nat) : ¬ Shortens window window := by
  cases window with
  | none => exact id
  | some seconds => exact Nat.lt_irrefl seconds

/-- What a step can do to the policies and to the calls. -/
theorem step_cases {s t : State} {a : Action} (h : step s a = some t) :
    (∃ k role set, a = .request k role set ∧ (t = s ∨ ∃ db table seconds,
      s.calls.lookup k = none ∧ t = s.put k ⟨role, db, table, seconds, .asked⟩)) ∨
    (∃ k call, a = .readCurrent k ∧ s.calls.lookup k = some call ∧ call.stage = .asked ∧
      t = s.put k { call with
        stage := .current (exactWindow s.policies call.db call.table) }) ∨
    (∃ k call seconds, a = .readScope k ∧ s.calls.lookup k = some call ∧
      call.stage = .current seconds ∧ t = s.put k { call with
        stage := .scoped seconds (wideningScope s.policies call.db call.table seconds) }) ∨
    (∃ k call seconds widening, a = .check k ∧ s.calls.lookup k = some call ∧
      call.stage = .scoped seconds widening ∧
      allows call.role (neededRole (destructive call.seconds seconds widening)) = true ∧
      t = s.put k { call with stage := .admitted seconds }) ∨
    (∃ k call, s.calls.lookup k = some call ∧ (a = .check k ∨ a = .abandon k) ∧ t = s.drop k) ∨
    (∃ k call seconds, a = .apply k ∧ s.calls.lookup k = some call ∧
      call.stage = .admitted seconds ∧ t = { s.drop k with
        policies := putPolicy ⟨call.db, call.table, call.seconds⟩ s.policies }) ∨
    (∃ role db table, a = .delete role db table ∧
      (t = s ∨ role = .admin ∧ t = { s with policies := dropPolicy db table s.policies })) := by
  cases a with
  | request k role set =>
      refine .inl ⟨k, role, set, rfl, ?_⟩
      simp only [step] at h
      split at h
      · cases h
      · exact .inl (Option.some.inj h).symm
      · exact .inr ⟨_, _, _, ‹_›, (Option.some.inj h).symm⟩
  | readCurrent k =>
      obtain ⟨call, hcall, h⟩ := Option.bind_eq_some_iff.mp h
      split at h
      · exact .inr (.inl ⟨k, call, rfl, hcall, ‹_›, (Option.some.inj h).symm⟩)
      · cases h
  | readScope k =>
      obtain ⟨call, hcall, h⟩ := Option.bind_eq_some_iff.mp h
      split at h
      · exact .inr (.inr (.inl ⟨k, call, _, rfl, hcall, ‹_›, (Option.some.inj h).symm⟩))
      · cases h
  | check k =>
      obtain ⟨call, hcall, h⟩ := Option.bind_eq_some_iff.mp h
      split at h
      · split at h
        · exact .inr (.inr (.inr (.inl
            ⟨k, call, _, _, rfl, hcall, ‹_›, ‹_›, (Option.some.inj h).symm⟩)))
        · exact .inr (.inr (.inr (.inr (.inl
            ⟨k, call, hcall, .inl rfl, (Option.some.inj h).symm⟩))))
      · cases h
  | apply k =>
      obtain ⟨call, hcall, h⟩ := Option.bind_eq_some_iff.mp h
      split at h
      · exact .inr (.inr (.inr (.inr (.inr (.inl
          ⟨k, call, _, rfl, hcall, ‹_›, (Option.some.inj h).symm⟩)))))
      · cases h
  | abandon k =>
      obtain ⟨call, hcall, h⟩ := Option.bind_eq_some_iff.mp h
      exact .inr (.inr (.inr (.inr (.inl
        ⟨k, call, hcall, .inr rfl, (Option.some.inj h).symm⟩))))
  | delete role db table =>
      refine .inr (.inr (.inr (.inr (.inr (.inr ⟨role, db, table, rfl, ?_⟩)))))
      simp only [step] at h
      split at h
      · refine .inr ⟨?_, (Option.some.inj h).symm⟩
        cases role <;> simp_all [allows]
      · exact .inl (Option.some.inj h).symm

theorem windowOf_put (p : RetentionPolicy) (policies : List RetentionPolicy) (db table : String) :
    windowOf (putPolicy p policies) db table =
      if p.table = table ∧ (p.db = db ∨
          p.db = retentionAnyDb ∧ findPolicy policies db table = none) then some p.seconds
      else windowOf policies db table := by
  simp only [windowOf, policyOf_eq, findPolicy_put]
  by_cases htable : p.table = table
  · by_cases hdb : p.db = db
    · simp [htable, hdb]
    · by_cases hany : p.db = retentionAnyDb
      · have hother : retentionAnyDb ≠ db := fun heq => hdb (hany.trans heq)
        cases hexact : findPolicy policies db table <;> simp [htable, hany, hother]
      · simp [htable, hdb, hany]
  · simp [htable]

/-- A policy written where the named table is governed no longer shortens no window. -/
theorem put_keeps {p : RetentionPolicy} {policies : List RetentionPolicy}
    (h : ¬ Shortens (windowOf policies p.db p.table) p.seconds) (db table : String) :
    ¬ Shortens (windowOf policies db table) (windowOf (putPolicy p policies) db table) := by
  rw [windowOf_put]
  split
  · next hcond =>
      obtain ⟨rfl, rfl | ⟨hany, hnone⟩⟩ := hcond
      · exact h
      · have hsame : windowOf policies db p.table = windowOf policies p.db p.table := by
          rw [windowOf, windowOf, policyOf_eq, policyOf_eq, hnone, hany]
          simp
        rw [hsame]
        exact h
  · exact shortens_irrefl _

/-- A step keeps the windows exactly when it is governed. -/
theorem keepsWindows_iff {s t : State} {a : Action} (h : step s a = some t) :
    KeepsWindows s a t ↔ Governed s a := by
  have hsame : t.policies = s.policies → KeepsWindows s a t := by
    intro hpolicies _ db table
    rw [hpolicies]
    exact shortens_irrefl _
  obtain ⟨k, role, set, rfl, rfl | ⟨_, _, _, _, rfl⟩⟩ | ⟨k, call, rfl, _, _, rfl⟩ |
    ⟨k, call, _, rfl, _, _, rfl⟩ | ⟨k, call, _, _, rfl, _, _, _, rfl⟩ |
    ⟨k, call, _, rfl | rfl, rfl⟩ | ⟨k, call, seconds, rfl, hcall, _, rfl⟩ |
    ⟨role, db, table, rfl, rfl | ⟨rfl, rfl⟩⟩ := step_cases h
  case inr.inr.inr.inr.inr.inl =>
    simp only [Governed, hcall, KeepsWindows, State.actor, Option.map_some, ne_eq,
      Option.some.injEq]
    constructor
    · intro hkeeps
      by_cases hrole : call.role = .admin
      · exact .inl hrole
      · have hown := hkeeps hrole call.db call.table
        rw [windowOf_put, if_pos ⟨rfl, .inl rfl⟩] at hown
        exact .inr hown
    · rintro (hrole | hgoverned) hbelow
      · exact absurd hrole hbelow
      · exact put_keeps hgoverned
  case inr.inr.inr.inr.inr.inr.inr => exact ⟨fun _ => trivial, fun _ h => absurd rfl h⟩
  all_goals exact ⟨fun _ => trivial, fun _ => hsame rfl⟩

end Steps

section Reads

/-- What a request has read of the policy it is about to write. -/
def Stage.seen : Stage → Option (Option Nat)
  | .asked => none
  | .current seconds => some seconds
  | .scoped seconds _ => some seconds
  | .admitted seconds => some seconds

/-- What a request below admin has read is still so, and was enough to let it through. -/
structure Call.Current (call : Call) (policies : List RetentionPolicy) : Prop where
  seen : ∀ seconds, call.stage.seen = some seconds →
    seconds = exactWindow policies call.db call.table
  wider : ∀ seconds, call.stage = .admitted seconds →
    ∃ existing, seconds = some existing ∧ existing ≤ call.seconds

def Inv (s : State) : Prop :=
  ∀ k call, s.calls.lookup k = some call → call.role ≠ .admin → call.Current s.policies

theorem wider_of_allowed {role : Role} {requested : Nat} {current : Option Nat} {widening : Bool}
    (hbelow : role ≠ .admin)
    (h : allows role (neededRole (destructive requested current widening)) = true) :
    ∃ existing, current = some existing ∧ existing ≤ requested := by
  cases hdestructive : destructive requested current widening with
  | true =>
      rw [hdestructive] at h
      cases role <;> simp_all [allows, neededRole]
  | false =>
      cases current with
      | none => simp [destructive] at hdestructive
      | some existing =>
          simp only [destructive, Bool.or_eq_false_iff, decide_eq_false_iff_not] at hdestructive
          exact ⟨existing, rfl, Nat.le_of_not_lt hdestructive.1⟩

theorem exactWindow_put (p : RetentionPolicy) (policies : List RetentionPolicy)
    {db table : String} (hother : (db, table) ≠ (p.db, p.table)) :
    exactWindow (putPolicy p policies) db table = exactWindow policies db table := by
  rw [exactWindow, exactWindow, findPolicy_put, if_neg]
  rintro ⟨rfl, rfl⟩
  exact hother rfl

theorem exactWindow_drop (db' table' : String) (policies : List RetentionPolicy)
    {db table : String} (hother : (db, table) ≠ (db', table')) :
    exactWindow (dropPolicy db' table' policies) db table = exactWindow policies db table := by
  rw [exactWindow, exactWindow, findPolicy_drop, if_neg]
  rintro ⟨rfl, rfl⟩
  exact hother rfl

/-- Other policies may change under a request, and its own until it has read it. -/
theorem Call.Current.frame {call : Call} {policies after : List RetentionPolicy}
    (h : call.Current policies) (hsame : call.stage ≠ .asked →
      exactWindow after call.db call.table = exactWindow policies call.db call.table) :
    call.Current after := by
  refine ⟨?_, h.wider⟩
  intro seconds hseen
  rw [hsame]
  · exact h.seen seconds hseen
  · intro hasked
    rw [hasked] at hseen
    cases hseen

theorem Inv.put {s : State} (h : Inv s) {k : Nat} {call : Call}
    (hcall : call.role ≠ .admin → call.Current s.policies) : Inv (s.put k call) := by
  intro j other hother hbelow
  rcases AssocMap.of_lookup_insert hother with ⟨-, rfl⟩ | ⟨-, hold⟩
  · exact hcall hbelow
  · exact h j other hold hbelow

theorem Inv.drop {s : State} (h : Inv s) (k : Nat) : Inv (s.drop k) := by
  intro j other hother hbelow
  exact h j other (AssocMap.of_lookup_erase hother).2 hbelow

theorem Inv.step {s t : State} {a : Action} (hinv : Inv s) (hok : Undisturbed s a)
    (h : step s a = some t) : Inv t := by
  obtain ⟨k, role, set, rfl, rfl | ⟨db, table, seconds, _, rfl⟩⟩ | ⟨k, call, rfl, hcall, _, rfl⟩ |
    ⟨k, call, seconds, rfl, hcall, hstage, rfl⟩ |
    ⟨k, call, seconds, widening, rfl, hcall, hstage, hallowed, rfl⟩ |
    ⟨k, call, _, _, rfl⟩ | ⟨k, call, seconds, rfl, hcall, _, rfl⟩ |
    ⟨role, db, table, rfl, rfl | ⟨rfl, rfl⟩⟩ := step_cases h
  · exact hinv
  · refine hinv.put fun _ => ⟨fun _ hseen => (nomatch hseen), fun _ hstage => nomatch hstage⟩
  · refine hinv.put fun _ => ⟨?_, fun _ hstage => nomatch hstage⟩
    intro seconds hseen
    exact (Option.some.inj hseen).symm
  · refine hinv.put fun hbelow => ⟨?_, fun _ hstage => nomatch hstage⟩
    intro seen hseen
    obtain rfl := Option.some.inj hseen
    exact (hinv k call hcall hbelow).seen seconds (by rw [hstage]; rfl)
  · refine hinv.put fun hbelow => ⟨?_, ?_⟩
    · intro seen hseen
      obtain rfl := Option.some.inj hseen
      exact (hinv k call hcall hbelow).seen seconds (by rw [hstage]; rfl)
    · intro seen hadmitted
      obtain rfl := Stage.admitted.inj hadmitted
      exact wider_of_allowed hbelow hallowed
  · exact hinv.drop k
  · intro j other hother hbelow
    obtain ⟨hne, hold⟩ := AssocMap.of_lookup_erase hother
    refine (hinv j other hold hbelow).frame fun hread => exactWindow_put _ _ fun hpair => ?_
    have htarget : s.target (.apply k) = some (call.db, call.table) := by
      simp [State.target, hcall]
    have hself := hok _ htarget j other hold hbelow hpair hread
    exact hne (Action.apply.inj hself).symm
  · exact hinv
  · intro j other hother hbelow
    refine (hinv j other hother hbelow).frame fun hread => exactWindow_drop _ _ _ fun hpair => ?_
    cases hok (db, table) rfl j other hother hbelow hpair hread

/-- A request that is let through and not disturbed is governed when it writes. -/
theorem Inv.governed {s t : State} {a : Action} (hinv : Inv s)
    (h : Windows.step s a = some t) :
    Governed s a := by
  cases a with
  | apply k =>
      obtain ⟨call, hcall, h⟩ := Option.bind_eq_some_iff.mp h
      split at h
      · next seconds hstage =>
          simp only [Governed, hcall]
          by_cases hrole : call.role = .admin
          · exact .inl hrole
          · have hcurrent := hinv k call hcall hrole
            obtain ⟨existing, rfl, hle⟩ := hcurrent.wider _ hstage
            have hexact := hcurrent.seen (some existing) (by rw [hstage]; rfl)
            have hwindow : windowOf s.policies call.db call.table = some existing := by
              obtain ⟨p, hp, hseconds⟩ := Option.map_eq_some_iff.mp hexact.symm
              rw [windowOf, policyOf_eq, hp]
              exact congrArg some hseconds
            rw [hwindow]
            exact .inr (Nat.not_lt.mpr hle)
      · cases h
  | _ => trivial

theorem inv_start (policies : List RetentionPolicy) : Inv (start policies) := by
  intro k call hcall
  cases hcall

theorem governed_run {s t : State} {acts : List Action} (run : Run step Undisturbed s acts t)
    (hinv : Inv s) : Run step Governed s acts t := by
  induction run with
  | nil s => exact .nil s
  | cons hok hs _ ih => exact .cons (hinv.governed hs) hs (ih (hinv.step hok hs))

end Reads

section Results

/-- In every run the sessions below admin shorten no window exactly when each of them
writes its policy while the table it names is governed no longer than it asks for; and
so it is when no other request changes that policy between its reads and its write. -/
theorem below_admin_keeps_windows {policies : List RetentionPolicy} {acts : List Action}
    {t : State} (run : Run step (fun _ _ => True) (start policies) acts t) :
    (Stepwise step KeepsWindows (start policies) acts ↔
        Run step Governed (start policies) acts t) ∧
      (Run step Undisturbed (start policies) acts t →
        Stepwise step KeepsWindows (start policies) acts) := by
  have hiff := run.stepwise_iff (fun s a t => keepsWindows_iff (s := s) (a := a) (t := t))
  refine ⟨hiff, fun hundisturbed => ?_⟩
  exact hiff.mpr (governed_run hundisturbed (inv_start policies))

/-- Two operators widen the policy of one table from ten days, to thirty and to twenty. -/
def policiesAtTen : List RetentionPolicy := [⟨"poc", "metrics", 864000⟩]

def widenTo (k : Nat) (duration : String) : List Action :=
  [.request k .operator ⟨some "poc", "metrics", duration⟩, .readCurrent k]

def carryOut (k : Nat) : List Action := [.readScope k, .check k, .apply k]

instance (before after : Option Nat) : Decidable (Shortens before after) :=
  match before, after with
  | _, none => isFalse id
  | none, some _ => isTrue trivial
  | some before, some after => inferInstanceAs (Decidable (after < before))

instance (s : State) (a : Action) : Decidable (Governed s a) :=
  match a with
  | .apply k =>
      match h : s.calls.lookup k with
      | none => isTrue (by simp [Governed, h])
      | some call =>
          decidable_of_iff (call.role = .admin ∨
            ¬Shortens (windowOf s.policies call.db call.table) call.seconds)
            (by simp [Governed, h])
  | .request .. => isTrue trivial
  | .readCurrent _ => isTrue trivial
  | .readScope _ => isTrue trivial
  | .check _ => isTrue trivial
  | .abandon _ => isTrue trivial
  | .delete .. => isTrue trivial

theorem operators_in_turn_keep :
    Stepwise step KeepsWindows (start policiesAtTen)
      (widenTo 0 "20d" ++ carryOut 0 ++ widenTo 1 "30d" ++ carryOut 1) := by
  have hrun : (checkedRun step Governed (start policiesAtTen)
      (widenTo 0 "20d" ++ carryOut 0 ++ widenTo 1 "30d" ++ carryOut 1)).isSome = true := by
    decide +kernel
  obtain ⟨t, ht⟩ := Option.isSome_iff_exists.mp hrun
  have run := run_of_checkedRun ht
  exact (below_admin_keeps_windows (run.mono fun _ _ _ => trivial)).1.mpr run

/-- Both have read ten days; the one that writes last takes ten days back. -/
theorem operators_race_shortens :
    ¬∀ policies acts t, Run step (fun _ _ => True) (start policies) acts t →
      Stepwise step KeepsWindows (start policies) acts := by
  intro hall
  have hrun : (checkedRun step (fun _ _ => True) (start policiesAtTen)
      (widenTo 0 "20d" ++ widenTo 1 "30d" ++ carryOut 1 ++ carryOut 0)).isSome = true := by
    decide +kernel
  have hnot : (checkedRun step Governed (start policiesAtTen)
      (widenTo 0 "20d" ++ widenTo 1 "30d" ++ carryOut 1 ++ carryOut 0)).isSome = false := by
    decide +kernel
  obtain ⟨t, ht⟩ := Option.isSome_iff_exists.mp hrun
  have run := run_of_checkedRun ht
  have hgoverned := (run.stepwise_iff fun s a t => keepsWindows_iff).mp (hall _ _ _ run)
  rw [hgoverned.checkedRun_eq] at hnot
  cases hnot

end Results

end TimeLake.Admin.Windows
