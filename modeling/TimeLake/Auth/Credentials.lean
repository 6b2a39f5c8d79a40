import TimeLake.Auth.Principals
import TimeLake.Auth.Tokens
import TimeLake.Library.AssocMap

/-!
The operations on credentials of one node, each as a whole. All five have one
shape: change the memory under a lock, put the file that holds it, and only then
answer. A put that fails leaves the memory changed, so the call is all or
nothing only where the put succeeds, is not reached, or has nothing to change.
-/

namespace TimeLake.Auth.Credentials

open TimeLake.Library TimeLake.Auth

/-- `BTreeMap<String, Vec<String>>` -/
structure CertGrants where
  byIdentity : List (String × List String)
  sorted : Increasing byIdentity
  deriving DecidableEq

namespace CertGrants

def empty : CertGrants := ⟨[], List.Pairwise.nil⟩

def get (g : CertGrants) (identity : String) : Option (List String) :=
  g.byIdentity.lookup identity

def insert (g : CertGrants) (identity : String) (authorizations : List String) : CertGrants :=
  ⟨insertPair identity authorizations g.byIdentity, g.sorted.insertPair identity authorizations⟩

def remove (g : CertGrants) (identity : String) : CertGrants :=
  ⟨g.byIdentity.filter fun p => p.1 ≠ identity, g.sorted.sublist List.filter_sublist⟩

end CertGrants

/-- The memory of a node. `loaded` is the content of the token file it last read
or wrote, of which the source keeps the hash. -/
structure Memory where
  principals : Principals
  tokens : TokenIndex
  loaded : Option (List TokenRecord)
  certGrants : CertGrants
  sessions : AssocMap String Session

/-- The three stored documents. -/
structure Docs where
  principals : Option Principals
  tokens : Option (List TokenRecord)
  certGrants : Option CertGrants
  deriving DecidableEq

structure Instance where
  memory : Memory
  docs : Docs

inductive CredentialError where
  | password (e : PasswordError)
  | persist
  deriving DecidableEq, Repr

/-- The document a call puts. -/
inductive Doc where
  | principals
  | tokens
  | certGrants
  deriving DecidableEq

def Docs.put (docs : Docs) (m : Memory) : Doc → Docs
  | .principals => { docs with principals := some m.principals }
  | .tokens => { docs with tokens := some m.tokens.records }
  | .certGrants => { docs with certGrants := some m.certGrants }

section Operations

variable {α : Type}

/-- The shape of every operation. `changed` is what happens under the lock: an
error, nothing to do, or a new memory; `finish` is what a successful put is
followed by. -/
def persisting (a : Instance) (changed : Except CredentialError (Option Memory)) (doc : Doc)
    (finish : Memory → Memory) (outcome : PutOutcome) (done idle : α) :
    Instance × Except CredentialError α :=
  match changed with
  | .error e => (a, .error e)
  | .ok none => (a, .ok idle)
  | .ok (some m) =>
      match outcome with
      | .ok => (⟨finish m, a.docs.put m doc⟩, .ok done)
      | .failed => ({ a with memory := m }, .error .persist)
      | .failedWritten => (⟨m, a.docs.put m doc⟩, .error .persist)

/-- What `persist_tokens` notes after its put. -/
def noteLoaded (m : Memory) : Memory := { m with loaded := some m.tokens.records }

/-- The record of a secret with this digest. -/
def newRecord (digest description : String) (scope : Scope) (databases authorizations : List String)
    (expiresAtSecs : Option Nat) (createdBy : String) (now : Nat) : TokenRecord where
  id := "tok-" ++ toString now ++ "-" ++ String.ofList (digest.toList.take 8)
  description := String.ofList (Ingest.trim description.toList)
  hash := digest
  scope := scope
  databases := databases
  authorizations := authorizations
  createdBy := createdBy
  createdAtSecs := now
  expiresAtSecs := expiresAtSecs
  revoked := false
  lastUsedSecs := none

def issueToken (a : Instance) (record : TokenRecord) (outcome : PutOutcome) :
    Instance × Except CredentialError TokenRecord :=
  persisting a (.ok (some { a.memory with tokens := a.memory.tokens.insert record })) .tokens
    noteLoaded outcome record record

def revokeToken (a : Instance) (id : String) (outcome : PutOutcome) :
    Instance × Except CredentialError Bool :=
  persisting a (.ok ((a.memory.tokens.revoke id).map fun tokens => { a.memory with
    tokens := tokens })) .tokens noteLoaded outcome true false

def setCertGrants (a : Instance) (identity : String) (authorizations : List String)
    (outcome : PutOutcome) : Instance × Except CredentialError Unit :=
  persisting a (.ok (some { a.memory with
    certGrants := a.memory.certGrants.insert identity authorizations })) .certGrants
    (fun m => m) outcome () ()

def removeCertGrants (a : Instance) (identity : String) (outcome : PutOutcome) :
    Instance × Except CredentialError Bool :=
  persisting a (.ok ((a.memory.certGrants.get identity).map fun _ => { a.memory with
    certGrants := a.memory.certGrants.remove identity })) .certGrants (fun m => m) outcome
    true false

/-- The sessions of the principal are dropped after the put only. -/
def changePasswordOf (argon : Argon2) (a : Instance) (username old new : String)
    (hash : Option String) (outcome : PutOutcome) : Instance × Except CredentialError Unit :=
  persisting a
    (match changePassword argon a.memory.principals username old new hash with
      | .error e => .error (.password e)
      | .ok (principals, _) => .ok (some { a.memory with principals := principals }))
    .principals
    (fun m => { m with
      sessions := AssocMap.keep (fun session => session.username ≠ username) m.sessions })
    outcome () ()

/-- A call, with the outcome its put would have. -/
inductive Op where
  | issueToken (digest description : String) (scope : Scope)
      (databases authorizations : List String) (expiresAtSecs : Option Nat) (createdBy : String)
      (now : Nat)
  | revokeToken (id : String)
  | setCertGrants (identity : String) (authorizations : List String)
  | removeCertGrants (identity : String)
  | changePassword (username old new : String) (hash : Option String)

/-- The state after a call, and its error. -/
def call (argon : Argon2) (a : Instance) (outcome : PutOutcome) : Op →
    Instance × Option CredentialError
  | .issueToken digest description scope databases authorizations expiresAtSecs createdBy now =>
      errorOf (issueToken a (newRecord digest description scope databases authorizations
        expiresAtSecs createdBy now) outcome)
  | .revokeToken id => errorOf (revokeToken a id outcome)
  | .setCertGrants identity authorizations =>
      errorOf (setCertGrants a identity authorizations outcome)
  | .removeCertGrants identity => errorOf (removeCertGrants a identity outcome)
  | .changePassword username old new hash =>
      errorOf (changePasswordOf argon a username old new hash outcome)
where
  errorOf {α : Type} (r : Instance × Except CredentialError α) :
      Instance × Option CredentialError :=
    (r.1, match r.2 with
      | .error e => some e
      | .ok _ => none)

end Operations

section AllOrNothing

/-- A call that returns an error leaves memory and documents as they were. -/
def AllOrNothing (argon : Argon2) (a : Instance) (outcome : PutOutcome) (op : Op) : Prop :=
  ∀ e, (call argon a outcome op).2 = some e → (call argon a outcome op).1 = a

/-- The call stops before it changes anything: the id is unknown or revoked
already, there are no grants, or `change_password` refuses its arguments. -/
def Refused (argon : Argon2) (m : Memory) : Op → Prop
  | .revokeToken id => (m.tokens.revoke id).isNone
  | .removeCertGrants identity => m.certGrants.get identity = none
  | .changePassword username old new hash =>
      (changePassword argon m.principals username old new hash).isOk = false
  | _ => False

/-- The memory is already as the call would make it. -/
def NoChange (m : Memory) : Op → Prop
  | .issueToken digest description scope databases authorizations expiresAtSecs createdBy now =>
      m.tokens.byHash.lookup digest = some (newRecord digest description scope databases
        authorizations expiresAtSecs createdBy now)
  | .setCertGrants identity authorizations => m.certGrants.get identity = some authorizations
  | .changePassword username _ _ hash => ∃ p, m.principals.get username = some p ∧
      hash = some p.passwordHash ∧ p.mustChangePassword = false ∧ p.isDefaultCredential = false
  | _ => False

def Op.doc : Op → Doc
  | .issueToken .. | .revokeToken .. => .tokens
  | .setCertGrants .. | .removeCertGrants .. => .certGrants
  | .changePassword .. => .principals

variable {α : Type} {argon : Argon2} {a : Instance} {outcome : PutOutcome}

/-- The three ways in which an operation leaves everything as it was. -/
theorem persisting_iff (changed : Except CredentialError (Option Memory)) (doc : Doc)
    (finish : Memory → Memory) (done idle : α) :
    (∀ e, (persisting a changed doc finish outcome done idle).2 = .error e →
        (persisting a changed doc finish outcome done idle).1 = a) ↔
      outcome = .ok ∨ ∀ m, changed = .ok (some m) →
        m = a.memory ∧ (outcome = .failedWritten → a.docs.put a.memory doc = a.docs) := by
  cases changed with
  | error e => simp [persisting]
  | ok m =>
      cases m with
      | none => simp [persisting]
      | some m =>
          cases outcome with
          | ok => simp [persisting]
          | failed =>
              cases a
              simp [persisting]
          | failedWritten =>
              obtain ⟨memory, docs⟩ := a
              simp only [persisting, Except.error.injEq, Instance.mk.injEq, Except.ok.injEq,
                Option.some.injEq, reduceCtorEq, false_or, forall_eq', forall_const]
              constructor
              · rintro ⟨rfl, hdocs⟩
                exact ⟨rfl, hdocs⟩
              · rintro ⟨rfl, hdocs⟩
                exact ⟨rfl, hdocs⟩

theorem errorOf_iff (r : Instance × Except CredentialError α) :
    (∀ e, (call.errorOf r).2 = some e → (call.errorOf r).1 = a) ↔
      ∀ e, r.2 = .error e → r.1 = a := by
  obtain ⟨b, result⟩ := r
  cases result with
  | error e => simp [call.errorOf]
  | ok v => simp [call.errorOf]

theorem tokens_insert_eq_self {t : TokenIndex} {r : TokenRecord} :
    t.insert r = t ↔ t.byHash.lookup r.hash = some r := by
  rw [← t.sorted.insertPair_eq_self]
  constructor
  · exact fun h => congrArg TokenIndex.byHash h
  · intro h
    cases t
    simp only [TokenIndex.insert, TokenIndex.mk.injEq]
    exact h

/-- A revocation that is not refused changes the index. -/
theorem tokens_revoke_ne {t t' : TokenIndex} {id : String} (h : t.revoke id = some t') :
    t' ≠ t := by
  rintro rfl
  unfold TokenIndex.revoke at h
  split at h
  · next r hfound =>
      split at h
      · cases h
      · next hlive =>
          have hsame := tokens_insert_eq_self.mp (Option.some.inj h)
          have hlookup := TokenIndex.lookup_eq_some.mpr ⟨(TokenIndex.mem_of_byId hfound).1, rfl⟩
          rw [hlookup] at hsame
          exact hlive (congrArg TokenRecord.revoked (Option.some.inj hsame))
  · cases h

theorem principals_set_eq_self {ps : Principals} {p : Principal} :
    ps.set p = ps ↔ ps.get p.username = some p := by
  rw [Principals.get, ← ps.sorted.insertPair_eq_self]
  constructor
  · exact fun h => congrArg Principals.byName h
  · intro h
    cases ps
    simp only [Principals.set, Principals.mk.injEq]
    exact h

theorem grants_insert_eq_self {g : CertGrants} {identity : String} {authorizations : List String} :
    g.insert identity authorizations = g ↔ g.get identity = some authorizations := by
  rw [CertGrants.get, ← g.sorted.insertPair_eq_self]
  cases g
  simp [CertGrants.insert]

theorem grants_remove_ne {g : CertGrants} {identity : String}
    (h : g.get identity ≠ none) : g.remove identity ≠ g := by
  intro heq
  have hlookup : (g.remove identity).get identity = none := by
    rw [CertGrants.get, CertGrants.remove]
    rw [lookup_filter_fst (fun key => decide (key ≠ identity))]
    simp
  exact h (heq ▸ hlookup)

/-- The memory a call would leave is the one it found. -/
private theorem changePassword_self {m : Memory} {principals : Principals} {c : Change}
    {username old new : String} {hash : Option String}
    (h : changePassword argon m.principals username old new hash = .ok (principals, c)) :
    principals = m.principals ↔ NoChange m (.changePassword username old new hash) := by
  obtain ⟨p, rfl, hp, _, _, rfl⟩ := changePassword_ok h
  have hname := Principals.username_of_get hp
  rw [principals_set_eq_self]
  change m.principals.get p.username = _ ↔ _
  rw [hname, hp]
  constructor
  · intro heq
    have heq := Option.some.inj heq
    refine ⟨p, hp, ?_, ?_, ?_⟩
    · rw [heq]
    · rw [heq]
    · rw [heq]
  · rintro ⟨q, hq, hhash, hmust, hdefault⟩
    obtain rfl := Option.some.inj (hp.symm.trans hq)
    have hhash := Option.some.inj hhash
    cases p
    simp_all

/-- A credential operation is all or nothing exactly where its put succeeds,
where it is refused before it changes anything, and where it has nothing to
change and a put that failed has not changed the document either. -/
theorem all_or_nothing_iff (argon : Argon2) (a : Instance) (outcome : PutOutcome) (op : Op) :
    AllOrNothing argon a outcome op ↔ outcome = .ok ∨ Refused argon a.memory op ∨
      (NoChange a.memory op ∧
        (outcome = .failedWritten → a.docs.put a.memory op.doc = a.docs)) := by
  have hmemory : ∀ {m : Memory} {tokens : TokenIndex},
      { m with tokens := tokens } = m ↔ tokens = m.tokens := by
    intro m tokens
    cases m
    simp
  have hgrants : ∀ {m : Memory} {grants : CertGrants},
      { m with certGrants := grants } = m ↔ grants = m.certGrants := by
    intro m grants
    cases m
    simp
  have hprincipals : ∀ {m : Memory} {principals : Principals},
      { m with principals := principals } = m ↔ principals = m.principals := by
    intro m principals
    cases m
    simp
  unfold AllOrNothing
  cases op with
  | issueToken digest description scope databases authorizations expiresAtSecs createdBy now =>
      simp only [call, errorOf_iff, issueToken, persisting_iff, Except.ok.injEq,
        Option.some.injEq, forall_eq', hmemory, tokens_insert_eq_self, Refused, NoChange, Op.doc,
        newRecord, false_or]
  | revokeToken id =>
      simp only [call, errorOf_iff, revokeToken, persisting_iff, Except.ok.injEq,
        Option.map_eq_some_iff, Refused, NoChange, Op.doc, false_and, or_false]
      cases htokens : a.memory.tokens.revoke id with
      | none => simp
      | some tokens => simp [hmemory, tokens_revoke_ne htokens]
  | setCertGrants identity authorizations =>
      simp only [call, errorOf_iff, setCertGrants, persisting_iff, Except.ok.injEq,
        Option.some.injEq, forall_eq', hgrants, grants_insert_eq_self, Refused, NoChange, Op.doc,
        false_or]
  | removeCertGrants identity =>
      simp only [call, errorOf_iff, removeCertGrants, persisting_iff, Except.ok.injEq,
        Option.map_eq_some_iff, Refused, NoChange, Op.doc, false_and, or_false]
      cases hget : a.memory.certGrants.get identity with
      | none => simp
      | some authorizations =>
          have hne : a.memory.certGrants.remove identity ≠ a.memory.certGrants :=
            grants_remove_ne (by simp [hget])
          simp [hgrants, hne]
  | changePassword username old new hash =>
      simp only [call, errorOf_iff, changePasswordOf, persisting_iff, Refused, Op.doc]
      cases hchange : changePassword argon a.memory.principals username old new hash with
      | error e => simp [Except.isOk, Except.toBool]
      | ok r =>
          obtain ⟨principals, c⟩ := r
          simp [Except.isOk, Except.toBool, hprincipals, changePassword_self hchange]

/-- Certificate grants are set and the put fails. -/
theorem failedGrant_remains : ¬ AllOrNothing ⟨fun _ => true, fun _ _ => true⟩
    ⟨⟨.empty, .empty, none, .empty, ∅⟩, ⟨none, none, none⟩⟩ .failed
    (.setCertGrants "CN=collector" ["public"]) := by
  rw [AllOrNothing]
  intro h
  have hsame := h .persist rfl
  exact absurd (congrArg (fun a => a.memory.certGrants.byIdentity) hsame) (by decide)

end AllOrNothing

end TimeLake.Auth.Credentials
