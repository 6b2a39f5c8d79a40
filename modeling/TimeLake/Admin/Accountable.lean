import TimeLake.Admin.Audited

/-!
What the admin plane owes: a call is made only for a session that the guard let in, with
the role that the call needs, and it is accounted for in the trail before its request is
answered with a success. Where the log fails closed, a record that cannot be written
turns the success into a refusal and keeps the gate shut until a record can be.
-/

namespace TimeLake.Admin.Plane

open TimeLake.Auth (Role SessionInfo)
open TimeLake.Audit (NewRecord AuditRecord HashInput)
open TimeLake.Library

section Meaning

/-- The role a call needs, given what is read before it: whoever shrinks or introduces a
window, or widens its scope, is an admin. -/
def neededFor (first view : View) : Call → Role
  | .setRetention db table seconds =>
      let current := Windows.exactWindow first.policies db table
      Windows.neededRole (Windows.destructive seconds current
        (Windows.wideningScope view.policies db table current))
  | .enableLastCache .. | .disableLastCache .. => .operator
  | .setConfig key .. | .revertConfig key => minRole key
  | .changePassword .. => .viewer
  | _ => .admin

namespace Call

/-- In whose name the call is made, where it says so. -/
def actor : Call → Option String
  | .setConfig _ _ actor _ => some actor
  | .issueToken _ _ _ _ _ createdBy => some createdBy
  | .changePassword username _ _ => some username
  | _ => none

def action : Call → String
  | .setRetention .. => "retention.set"
  | .removeRetention .. => "retention.remove"
  | .enableLastCache .. => "last_cache.enable"
  | .disableLastCache .. => "last_cache.disable"
  | .createTable .. => "table.create"
  | .dropTable .. => "table.drop"
  | .setRollup .. => "rollup.set"
  | .removeRollup .. => "rollup.remove"
  | .deleteWhere .. => "data.delete"
  | .setConfig .. => "config.set"
  | .revertConfig .. => "config.revert"
  | .issueToken .. => "token.issue"
  | .revokeToken .. => "token.revoke"
  | .setCertGrants .. => "cert_grants.set"
  | .removeCertGrants .. => "cert_grants.remove"
  | .changePassword .. => "password.change"

/-- What the call is about. A token is named once it is there. -/
def target : (c : Call) → Except Failure c.Answer → Option String
  | .setRetention db table _, _ | .removeRetention db table, _ | .enableLastCache db table, _
  | .disableLastCache db table, _ | .createTable db table _, _ | .dropTable db table, _
  | .deleteWhere db table _ _ _, _ => some (scopeName db table)
  | .setRollup d, _ => some (scopeName d.db d.name)
  | .removeRollup db name, _ => some (scopeName db name)
  | .setConfig key .., _ | .revertConfig key, _ => some key
  | .issueToken .., .ok (_, record) => some record.id
  | .issueToken .., .error _ => none
  | .revokeToken id, _ => some id
  | .setCertGrants cn _, _ | .removeCertGrants cn, _ => some cn
  | .changePassword username .., _ => some username

/-- The call did what it was asked to; a removal has to find something. -/
def took : (c : Call) → Except Failure c.Answer → Bool
  | .revokeToken _, .ok removed | .removeCertGrants _, .ok removed => removed
  | _, .ok _ => true
  | _, .error _ => false

/-- What came of the call is left out of the trail. -/
def silent : (c : Call) → Except Failure c.Answer → Bool
  | .revokeToken _, .ok removed | .removeCertGrants _, .ok removed => !removed
  | .revertConfig _, .error _ => true
  | _, _ => false

end Call

/-- A conclusion that fits what came of the call. -/
def Concludes (c : Call) (result : Except Failure c.Answer) : Conclusion → Prop
  | .recorded target _ status _ =>
      c.took result = true ∧ target = c.target result ∧ status < 300
  | .noted target _ outcome _ =>
      c.took result = false ∧ c.silent result = false ∧ target = c.target result ∧ outcome ≠ "ok"
  | .unrecorded _ => c.took result = false ∧ c.silent result = true

def Reply.success : Reply → Bool
  | .done status _ => status < 300
  | .refused _ => false

/-- The request that only asks what a setting would do. -/
def DryRun (req : Request) : Prop :=
  (∃ key, req.path = ["admin", "config", key]) ∧ req.method = .put ∧
    ∃ v ∈ req.query.lookup "dry_run", v = "1" ∨ v = "true"

/-- A mutation that its session may make and that tells the trail what it does. -/
structure Sound (session : SessionInfo) (first view : View) (m : Mutation) : Prop where
  allowed : Windows.allows session.role (neededFor first view m.call) = true
  actor : ∀ name ∈ m.call.actor, name = session.username
  action : m.action = m.call.action
  concludes : ∀ result v, Concludes m.call result (m.conclude result v)

end Meaning

section Handlers

/-- What a plan leads to, if it leads to a mutation; and when it answers with a success
instead. -/
structure Leads (P : Mutation → Prop) (dry : Prop) (plan : Plan) : Prop where
  mutation : ∀ m, plan = .ok (.ok m) → P m
  answer : ∀ reply, plan = .error reply ∨ plan = .ok (.error reply) → reply.success = true → dry

variable {P : Mutation → Prop} {dry : Prop}

theorem Leads.refuse {refusal : Refusal} : Leads P dry (refuse refusal) := by
  constructor
  · intro m h
    cases h
  · rintro reply (h | h) hsuccess
    · cases h
      cases hsuccess
    · cases h

theorem Leads.refuseBehind {refusal : Refusal} : Leads P dry (.ok (.error (.refused refusal))) := by
  constructor
  · intro m h
    cases h
  · rintro reply (h | h) hsuccess
    · cases h
    · cases h
      cases hsuccess

theorem Leads.answered {reply : Reply} (h : dry) : Leads P dry (.error reply) := by
  constructor
  · intro m hm
    cases hm
  · exact fun _ _ _ => h

theorem Leads.behindGate {m : Mutation} (h : P m) : Leads P dry (behindGate m) := by
  refine ⟨?_, ?_⟩
  · intro m' hm
    cases hm
    exact h
  · rintro reply (hr | hr) _
    · cases hr
    · cases hr

theorem Leads.mono {dry' : Prop} {plan : Plan} (h : Leads P dry plan) (himp : dry → dry') :
    Leads P dry' plan :=
  ⟨h.mutation, fun reply hr hsuccess => himp (h.answer reply hr hsuccess)⟩

theorem Leads.require {session : SessionInfo} {needed : Role} {next : Unit → Plan}
    (h : Windows.allows session.role needed = true → Leads P dry (next ())) :
    Leads P dry (require session needed >>= next) := by
  cases hallows : Windows.allows session.role needed with
  | false =>
      rw [Plane.require, hallows]
      exact .refuse
  | true =>
      rw [Plane.require, hallows]
      exact h hallows

theorem readBody_error {α : Type} {limit : Nat} {parse : Bytes → Except String α} {req : Request}
    {reply : Reply} (h : readBody limit parse req = .error reply) :
    ∃ refusal, reply = .refused refusal := by
  unfold readBody at h
  split at h
  · cases h
    exact ⟨_, rfl⟩
  · split at h
    · cases h
      exact ⟨_, rfl⟩
    · cases h

theorem Leads.readBody {α : Type} {limit : Nat} {parse : Bytes → Except String α} {req : Request}
    {next : α → Plan} (h : ∀ v, Leads P dry (next v)) :
    Leads P dry (readBody limit parse req >>= next) := by
  cases hbody : Plane.readBody limit parse req with
  | error reply =>
      obtain ⟨refusal, rfl⟩ := readBody_error hbody
      exact .refuse
  | ok v => exact h v

variable {bodies : Bodies} {session : SessionInfo} {req : Request} {first view : View}

theorem retentionSet_sound : Leads (Sound session first view) False
    (retentionSet bodies session req first view) := by
  refine .readBody fun set => ?_
  cases set.named with
  | error e => exact .refuse
  | ok named =>
      refine .require fun hallows => .behindGate ⟨hallows, by simp [Call.actor], rfl, ?_⟩
      rintro (e | _) v
      · exact ⟨rfl, rfl, rfl, by decide⟩
      · exact ⟨rfl, rfl, by decide⟩

theorem named_sound {call : Call} {action db field name status : String}
    {before : View → Option (Json Int)} {done : Nat} {failed : String → Refusal}
    (hallows : Windows.allows session.role (neededFor first view call) = true)
    (hactor : call.actor = none) (haction : action = call.action) (hdone : done < 300)
    (hresult : ∀ result, call.took result = result.isOk ∧ call.silent result = false ∧
      call.target result = some (scopeName db name)) :
    Sound session first view (named call action before db field name done status failed) := by
  refine ⟨hallows, by simp [named, hactor], haction, ?_⟩
  rintro (e | a) v
  · obtain ⟨htook, hsilent, htarget⟩ := hresult (.error e)
    exact ⟨htook, hsilent, htarget.symm, by decide⟩
  · obtain ⟨htook, _, htarget⟩ := hresult (.ok a)
    exact ⟨htook, htarget.symm, hdone⟩

theorem retentionDelete_sound {db table : String} :
    Leads (Sound session first view) False (retentionDelete session db table) := by
  refine .require fun hallows => .behindGate (named_sound hallows rfl rfl (by decide) ?_)
  rintro (e | a) <;> exact ⟨rfl, rfl, rfl⟩

theorem lastCacheSet_sound :
    Leads (Sound session first view) False (lastCacheSet bodies session req) := by
  refine .readBody fun set => ?_
  dsimp only
  split
  · exact .refuse
  · refine .require fun hallows => .behindGate (named_sound hallows rfl rfl (by decide) ?_)
    rintro (e | a) <;> exact ⟨rfl, rfl, rfl⟩

theorem lastCacheDelete_sound {db table : String} :
    Leads (Sound session first view) False (lastCacheDelete session db table) := by
  refine .require fun hallows => .behindGate (named_sound hallows rfl rfl (by decide) ?_)
  rintro (e | a) <;> exact ⟨rfl, rfl, rfl⟩

theorem tablesCreate_sound :
    Leads (Sound session first view) False (tablesCreate bodies session req) := by
  refine .readBody fun spec => ?_
  dsimp only
  split
  · exact .refuse
  · refine .require fun hallows => .behindGate (named_sound hallows rfl rfl (by decide) ?_)
    rintro (e | a) <;> exact ⟨rfl, rfl, rfl⟩

theorem tablesDrop_sound {db table : String} :
    Leads (Sound session first view) False (tablesDrop session db table) := by
  refine .require fun hallows => .behindGate (named_sound hallows rfl rfl (by decide) ?_)
  rintro (e | a) <;> exact ⟨rfl, rfl, rfl⟩

theorem rollupsDelete_sound {db name : String} :
    Leads (Sound session first view) False (rollupsDelete session db name) := by
  refine .require fun hallows => .behindGate (named_sound hallows rfl rfl (by decide) ?_)
  rintro (e | a) <;> exact ⟨rfl, rfl, rfl⟩

/-- The body is read behind the gate, so until then the plan is the one of the rest. -/
theorem rollupsSet_sound :
    Leads (Sound session first view) False (rollupsSet bodies session req) := by
  refine .require fun hallows => ?_
  cases hbody : readBody (256 * 1024) bodies.rollupSet req with
  | error reply =>
      obtain ⟨refusal, rfl⟩ := readBody_error hbody
      exact .refuseBehind
  | ok set =>
      cases hdef : set.toDef with
      | error e =>
          simp only [bind, Except.bind, hdef]
          exact .refuseBehind
      | ok d =>
          simp only [bind, Except.bind, hdef]
          refine .behindGate ⟨hallows, by simp [Call.actor], rfl, ?_⟩
          rintro (e | _) v
          · exact ⟨rfl, rfl, rfl, by decide⟩
          · exact ⟨rfl, rfl, by decide⟩

theorem adminDelete_sound :
    Leads (Sound session first view) False (adminDelete bodies session req) := by
  refine .require fun hallows => .readBody fun del => ?_
  dsimp only
  split
  · exact .refuse
  · refine .behindGate ⟨hallows, by simp [Call.actor], rfl, ?_⟩
    rintro (e | _) v
    · dsimp only
      split
      · exact ⟨rfl, rfl, rfl, by decide⟩
      · exact ⟨rfl, rfl, rfl, by decide⟩
    · exact ⟨rfl, rfl, by decide⟩

theorem configSet_sound {key : String} :
    Leads (Sound session first view) (∃ v ∈ req.query.lookup "dry_run", v = "1" ∨ v = "true")
      (configSet bodies session req key view) := by
  unfold configSet
  split
  · exact .refuse
  · refine .require fun hallows => .readBody fun body => ?_
    split
    · exact .refuse
    · split
      · next hdry =>
          split
          · exact .answered (by simpa [Option.any_eq_true] using hdry)
          · exact .refuse
      · refine .behindGate ⟨hallows, by simp [Call.actor], rfl, ?_⟩
        rintro (e | _) v
        · exact ⟨rfl, rfl, rfl, by decide⟩
        · exact ⟨rfl, rfl, by decide⟩

theorem configDelete_sound {key : String} :
    Leads (Sound session first view) False (configDelete session key) := by
  unfold configDelete
  split
  · exact .refuse
  · refine .require fun hallows => .behindGate ⟨hallows, by simp [Call.actor], rfl, ?_⟩
    rintro (e | _) v
    · exact ⟨rfl, rfl⟩
    · exact ⟨rfl, rfl, by decide⟩

theorem tokensIssue_sound :
    Leads (Sound session first view) False (tokensIssue bodies session req view) := by
  refine .require fun hallows => .readBody fun issue => ?_
  split
  · exact .refuse
  · split
    · exact .refuse
    · refine .behindGate ⟨hallows, by simp [Call.actor], rfl, ?_⟩
      rintro (e | _) v
      · exact ⟨rfl, rfl, rfl, by decide⟩
      · exact ⟨rfl, rfl, by decide⟩

theorem removal_sound {call : Call} {answer : call.Answer = Bool}
    {action field name status absent : String} {before : View → Option (Json Int)}
    (hallows : Windows.allows session.role (neededFor first view call) = true)
    (hactor : call.actor = none) (haction : action = call.action)
    (htarget : ∀ result, call.target result = some name)
    (herror : ∀ e, call.took (.error e) = false ∧ call.silent (.error e) = false)
    (hok : ∀ a, call.took (.ok a) = cast answer a ∧ call.silent (.ok a) = !cast answer a) :
    Sound session first view
      (removal call answer action before field name status absent) := by
  refine ⟨hallows, by simp [removal, hactor], haction, ?_⟩
  rintro (e | a) v
  · exact ⟨(herror e).1, (herror e).2, (htarget _).symm, by decide⟩
  · cases hremoved : cast answer a with
    | true =>
        simp only [removal, hremoved, if_true]
        exact ⟨by rw [(hok a).1, hremoved], (htarget _).symm, by decide⟩
    | false =>
        simp only [removal, hremoved, Bool.false_eq_true, if_false]
        exact ⟨by rw [(hok a).1, hremoved], by rw [(hok a).2, hremoved]; rfl⟩

theorem tokensRevoke_sound {id : String} :
    Leads (Sound session first view) False (tokensRevoke session id) :=
  .require fun hallows => .behindGate (removal_sound hallows rfl rfl (fun _ => rfl)
    (fun _ => ⟨rfl, rfl⟩) fun _ => ⟨rfl, rfl⟩)

theorem certGrantsRemove_sound {cn : String} :
    Leads (Sound session first view) False (certGrantsRemove session cn) :=
  .require fun hallows => .behindGate (removal_sound hallows rfl rfl (fun _ => rfl)
    (fun _ => ⟨rfl, rfl⟩) fun _ => ⟨rfl, rfl⟩)

theorem certGrantsSet_sound {cn : String} :
    Leads (Sound session first view) False (certGrantsSet bodies session req cn) := by
  refine .require fun hallows => .readBody fun authorizations => ?_
  split
  · exact .refuse
  · refine .behindGate ⟨hallows, by simp [Call.actor], rfl, ?_⟩
    rintro (e | _) v
    · exact ⟨rfl, rfl, rfl, by decide⟩
    · exact ⟨rfl, rfl, by decide⟩

/-- Every role allows what a viewer may do. -/
theorem allows_viewer (role : Role) : Windows.allows role .viewer = true := by
  cases role <;> rfl

theorem changePassword_sound :
    Leads (Sound session first view) False (changePassword bodies session req) := by
  refine .readBody fun change => ?_
  refine .behindGate ⟨allows_viewer _, by simp [Call.actor], rfl, ?_⟩
  rintro (e | _) v
  · exact ⟨rfl, rfl, rfl, by decide⟩
  · exact ⟨rfl, rfl, by decide⟩

/-- Whatever the route. -/
theorem adminApp_sound {plan : Plan} (h : adminApp bodies session req first view = some plan) :
    Leads (Sound session first view) (DryRun req) plan := by
  unfold adminApp at h
  split at h
  · obtain rfl := Option.some.inj h
    exact retentionSet_sound.mono False.elim
  · obtain rfl := Option.some.inj h
    exact retentionDelete_sound.mono False.elim
  · obtain rfl := Option.some.inj h
    exact lastCacheSet_sound.mono False.elim
  · obtain rfl := Option.some.inj h
    exact lastCacheDelete_sound.mono False.elim
  · obtain rfl := Option.some.inj h
    exact tablesCreate_sound.mono False.elim
  · obtain rfl := Option.some.inj h
    exact tablesDrop_sound.mono False.elim
  · obtain rfl := Option.some.inj h
    exact configSet_sound.mono fun hdry => ⟨⟨_, ‹_›⟩, ‹_›, hdry⟩
  · obtain rfl := Option.some.inj h
    exact configDelete_sound.mono False.elim
  · obtain rfl := Option.some.inj h
    exact rollupsSet_sound.mono False.elim
  · obtain rfl := Option.some.inj h
    exact rollupsDelete_sound.mono False.elim
  · obtain rfl := Option.some.inj h
    exact adminDelete_sound.mono False.elim
  · obtain rfl := Option.some.inj h
    exact changePassword_sound.mono False.elim
  · obtain rfl := Option.some.inj h
    exact tokensIssue_sound.mono False.elim
  · obtain rfl := Option.some.inj h
    exact tokensRevoke_sound.mono False.elim
  · obtain rfl := Option.some.inj h
    exact certGrantsSet_sound.mono False.elim
  · obtain rfl := Option.some.inj h
    exact certGrantsRemove_sound.mono False.elim
  · cases h

end Handlers

end TimeLake.Admin.Plane
