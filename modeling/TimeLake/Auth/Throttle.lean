import TimeLake.Library.AssocMap
import TimeLake.Library.Run
import Mathlib.Algebra.Group.Nat.Defs
import Mathlib.Logic.Function.Basic
import Mathlib.Data.List.Chain

/-!
Login throttling (`Auth::backoff` and `Auth::login`). A login looks at the failures of
its name under the lock, verifies the password without it and takes it again to count
the failure or to forget the name's failures. Times are nanoseconds of one monotone
clock; the times at which wrong passwords of a name were verified since its last
success are not data of the program.
-/

namespace TimeLake.Auth.Throttle

open TimeLake.Library

section Machine

/-- `FREE_ATTEMPTS` -/
def freeAttempts : Nat := 3

/-- `MAX_BACKOFF` -/
def maxBackoff : Nat := 300 * 1000000000

structure Failures where
  count : UInt32
  last : Nat
  deriving DecidableEq, Repr

/-- Where a login stands. -/
inductive Call where
  | checked (username : String)
  | verified (username : String) (right : Bool)
  deriving DecidableEq, Repr

def Call.username : Call → String
  | .checked username => username
  | .verified username _ => username

structure State where
  now : Nat
  failures : AssocMap String Failures
  calls : AssocMap Nat Call
  tried : String → List Nat

inductive Action where
  | tick (ns : Nat)
  | login (k : Nat) (username : String)
  | verify (k : Nat) (right : Bool)
  | finish (k : Nat)
  deriving DecidableEq, Repr

/-- What a count of failures has to wait for, in nanoseconds. -/
def waitFor (count : Nat) : Nat :=
  min ((1 <<< min (count - freeAttempts - 1) 8) * 1000000000) maxBackoff

/-- `backoff` -/
def backoff (s : State) (username : String) : Option Nat :=
  (s.failures.lookup username).bind fun entry =>
    if entry.count.toNat ≤ freeAttempts then none
    else
      let wait := waitFor entry.count.toNat
      let since := s.now - entry.last
      if since < wait then some (wait - since) else none

/-- A login that has to wait is refused at once. -/
def login (s : State) (k : Nat) (username : String) : Option State :=
  match s.calls.lookup k with
  | some _ => none
  | none =>
      match backoff s username with
      | some _ => some s
      | none => some { s with calls := s.calls.insert k (.checked username) }

def verify (s : State) (k : Nat) (right : Bool) : Option State :=
  match s.calls.lookup k with
  | some (.checked username) =>
      some { s with
        calls := s.calls.insert k (.verified username right)
        tried := if right then s.tried
          else Function.update s.tried username (s.tried username ++ [s.now]) }
  | _ => none

/-- The failures of a name after one more; the count wraps. -/
def failedOnce (s : State) (username : String) : Failures :=
  ⟨((s.failures.lookup username).elim 0 Failures.count) + 1, s.now⟩

def finish (s : State) (k : Nat) : Option State :=
  match s.calls.lookup k with
  | some (.verified username false) =>
      some { s with
        calls := s.calls.erase k
        failures := s.failures.insert username (failedOnce s username) }
  | some (.verified username true) =>
      some { s with
        calls := s.calls.erase k
        failures := s.failures.erase username
        tried := Function.update s.tried username [] }
  | _ => none

def step (s : State) : Action → Option State
  | .tick ns => some { s with now := s.now + ns }
  | .login k username => login s k username
  | .verify k right => verify s k right
  | .finish k => finish s k

def start (now : Nat) : State := ⟨now, ∅, ∅, fun _ => []⟩

/-- The name that a step is about. -/
def State.subject (s : State) : Action → Option String
  | .tick _ => none
  | .login _ username => some username
  | .verify k _ => (s.calls.lookup k).map Call.username
  | .finish k => (s.calls.lookup k).map Call.username

end Machine

section Spacing

/-- Between the `k`-th wrong password and the next, for every `k` above the free
attempts, the wait of `k` failures passes. -/
def Spaced (tries : List Nat) : Prop :=
  ∀ k t t', freeAttempts < k → tries[k - 1]? = some t → tries[k]? = some t' →
    t + min (2 ^ (k - freeAttempts - 1)) 256 * 1000000000 ≤ t'

/-- In a window of that many seconds there are at most four more tries. -/
def Bounded (tries : List Nat) : Prop :=
  ∀ from' seconds, (tries.filter fun t =>
    from' ≤ t && t ≤ from' + seconds * 1000000000).length ≤ seconds + 4

def Throttled (s : State) : Prop :=
  ∀ username, Spaced (s.tried username) ∧ Bounded (s.tried username)

theorem spaced_nil : Spaced [] := by
  intro k t t' _ ht
  simp at ht

theorem waitFor_eq {count : Nat} :
    waitFor count = min (2 ^ (count - freeAttempts - 1)) 256 * 1000000000 := by
  have hshift : (1 <<< min (count - freeAttempts - 1) 8 : Nat) =
      min (2 ^ (count - freeAttempts - 1)) 256 := by
    rw [Nat.one_shiftLeft]
    rcases Nat.le_total (count - freeAttempts - 1) 8 with hle | hle
    · have hpow : 2 ^ (count - freeAttempts - 1) ≤ 256 :=
        calc 2 ^ (count - freeAttempts - 1) ≤ 2 ^ 8 := Nat.pow_le_pow_right (by decide) hle
          _ = 256 := rfl
      rw [min_eq_left hle, min_eq_left hpow]
    · have hpow : 256 ≤ 2 ^ (count - freeAttempts - 1) :=
        calc 256 = 2 ^ 8 := rfl
          _ ≤ 2 ^ (count - freeAttempts - 1) := Nat.pow_le_pow_right (by decide) hle
      rw [min_eq_right hle, min_eq_right hpow]
  rw [waitFor, hshift, maxBackoff]
  have hcap : min (2 ^ (count - freeAttempts - 1)) 256 ≤ 256 := min_le_right _ _
  exact min_eq_left (by omega)

theorem Spaced.concat {tries : List Nat} {now : Nat} (h : Spaced tries)
    (hlast : ∀ t, freeAttempts < tries.length → tries.getLast? = some t →
      t + waitFor tries.length ≤ now) : Spaced (tries ++ [now]) := by
  intro k t t' hk ht ht'
  rcases Nat.lt_trichotomy k tries.length with hlt | rfl | hgt
  · rw [List.getElem?_append_left (by omega)] at ht ht'
    exact h k t t' hk ht ht'
  · rw [List.getElem?_append_left (by unfold freeAttempts at hk; omega)] at ht
    rw [List.getElem?_append_right (le_refl _)] at ht'
    have hnow : now = t' := by simpa using ht'
    rw [← hnow, ← waitFor_eq]
    exact hlast t hk (by rw [List.getLast?_eq_getElem?, ht])
  · rw [List.getElem?_append_right (by omega)] at ht'
    have hone : k - tries.length = 0 := by
      by_contra hne
      rw [List.getElem?_eq_none (by simp; omega)] at ht'
      cases ht'
    omega

/-- Tries with that distance between them in a window. -/
theorem length_le_of_apart {l : List Nat} {lo hi gap : Nat}
    (hpair : l.Pairwise fun a b => a + gap ≤ b) (hlo : ∀ t ∈ l, lo ≤ t)
    (hhi : ∀ t ∈ l, t ≤ hi) (hne : l ≠ []) : lo + (l.length - 1) * gap ≤ hi := by
  induction l generalizing lo with
  | nil => exact absurd rfl hne
  | cons a rest ih =>
      obtain ⟨hhead, htail⟩ := List.pairwise_cons.mp hpair
      have ha := hlo a List.mem_cons_self
      cases rest with
      | nil => simpa using ha.trans (hhi a List.mem_cons_self)
      | cons b rest =>
          have hrest := ih htail hhead (fun t ht => hhi t (List.mem_cons_of_mem _ ht))
            (List.cons_ne_nil _ _)
          simp only [List.length_cons, Nat.add_sub_cancel] at hrest ⊢
          rw [Nat.succ_mul]
          omega

theorem Spaced.pairwise {tries : List Nat} (h : Spaced tries) :
    (tries.drop freeAttempts).Pairwise fun a b => a + 1000000000 ≤ b := by
  have htrans : Trans (fun a b : Nat => a + 1000000000 ≤ b) (fun a b => a + 1000000000 ≤ b)
      (fun a b => a + 1000000000 ≤ b) := ⟨fun hab hbc => by omega⟩
  apply List.IsChain.pairwise
  rw [List.isChain_iff_getElem]
  intro i hi
  have hnext := h (freeAttempts + (i + 1)) (tries.drop freeAttempts)[i]
    (tries.drop freeAttempts)[i + 1] (by omega)
    (by
      rw [show freeAttempts + (i + 1) - 1 = freeAttempts + i by omega, ← List.getElem?_drop]
      exact List.getElem?_eq_getElem _)
    (by
      rw [← List.getElem?_drop]
      exact List.getElem?_eq_getElem _)
  have hone : 1 ≤ min (2 ^ (freeAttempts + (i + 1) - freeAttempts - 1)) 256 :=
    le_min Nat.one_le_two_pow (by decide)
  have hsec := Nat.mul_le_mul_right 1000000000 hone
  omega

theorem Spaced.bounded {tries : List Nat} (h : Spaced tries) : Bounded tries := by
  intro from' seconds
  set inWindow : Nat → Bool := fun t => from' ≤ t && t ≤ from' + seconds * 1000000000
  have hsplit : (tries.filter inWindow).length =
      ((tries.take freeAttempts).filter inWindow).length +
        ((tries.drop freeAttempts).filter inWindow).length := by
    rw [← List.length_append, ← List.filter_append, List.take_append_drop]
  have hfree : ((tries.take freeAttempts).filter inWindow).length ≤ 3 :=
    (List.length_filter_le _ _).trans (List.length_take_le _ _)
  have hmem : ∀ t ∈ (tries.drop freeAttempts).filter inWindow,
      from' ≤ t ∧ t ≤ from' + seconds * 1000000000 := by
    intro t ht
    simpa [inWindow] using (List.mem_filter.mp ht).2
  have hrest : ((tries.drop freeAttempts).filter inWindow).length ≤ seconds + 1 := by
    by_cases hne : (tries.drop freeAttempts).filter inWindow = []
    · simp [hne]
    · have hwindow := length_le_of_apart (h.pairwise.sublist List.filter_sublist)
        (fun t ht => (hmem t ht).1) (fun t ht => (hmem t ht).2) hne
      omega
  omega

end Spacing

section Attempts

/-- The wrong passwords of a name that have been counted. -/
def State.counted (s : State) (username : String) : Nat :=
  ((s.failures.lookup username).elim 0 Failures.count).toNat

/-- No other login of the name is under way when one is let through, and the count of the
name does not wrap. -/
def Careful (s : State) : Action → Prop
  | .login _ username => ∀ call ∈ s.calls.values, call.username ≠ username
  | .finish k => ∀ username, s.subject (.finish k) = some username →
      s.counted username < 4294967295
  | _ => True

/-- What the run keeps for one name. -/
structure Paced (s : State) (username : String) : Prop where
  spaced : Spaced (s.tried username)
  past : ∀ t ∈ s.tried username, t ≤ s.now
  settled : (∀ k, s.calls.lookup k ≠ some (.verified username false)) →
    (s.tried username).length = s.counted username
  pending : ∀ k, s.calls.lookup k = some (.verified username false) →
    (s.tried username).length = s.counted username + 1
  lastPast : ∀ f, s.failures.lookup username = some f → f.last ≤ s.now
  before : ∀ f, s.failures.lookup username = some f →
    ∀ t ∈ (s.tried username).take f.count.toNat, t ≤ f.last
  waited : ∀ k f, s.calls.lookup k = some (.checked username) →
    s.failures.lookup username = some f → freeAttempts < f.count.toNat →
      f.last + waitFor f.count.toNat ≤ s.now

structure Inv (s : State) : Prop where
  alone : ∀ k j call other, s.calls.lookup k = some call → s.calls.lookup j = some other →
    call.username = other.username → k = j
  paced : ∀ username, Paced s username

/-- Steps that touch neither the failures nor the calls of a name. -/
theorem Paced.frame {s t : State} {username : String} (h : Paced s username)
    (hfailures : t.failures.lookup username = s.failures.lookup username)
    (htried : t.tried username = s.tried username)
    (hcalls : ∀ k call, call.username = username →
      (t.calls.lookup k = some call ↔ s.calls.lookup k = some call))
    (hnow : s.now ≤ t.now) : Paced t username := by
  have hcounted : t.counted username = s.counted username := by
    rw [State.counted, State.counted, hfailures]
  constructor
  · rw [htried]
    exact h.spaced
  · rw [htried]
    intro time htime
    exact (h.past time htime).trans hnow
  · intro hnone
    rw [htried, hcounted]
    exact h.settled fun k hk => hnone k ((hcalls k _ rfl).mpr hk)
  · intro k hk
    rw [htried, hcounted]
    exact h.pending k ((hcalls k _ rfl).mp hk)
  · rw [hfailures]
    exact fun f hf => (h.lastPast f hf).trans hnow
  · rw [hfailures, htried]
    exact h.before
  · intro k f hk hf hfree
    rw [hfailures] at hf
    exact (h.waited k f ((hcalls k _ rfl).mp hk) hf hfree).trans hnow

/-- What a step can do. -/
theorem step_cases {s t : State} {a : Action} (h : step s a = some t) :
    (∃ ns, a = .tick ns ∧ t = { s with now := s.now + ns }) ∨
    (∃ k username, a = .login k username ∧ t = s) ∨
    (∃ k username, a = .login k username ∧ s.calls.lookup k = none ∧
      backoff s username = none ∧
      t = { s with calls := s.calls.insert k (.checked username) }) ∨
    (∃ k username, a = .verify k true ∧ s.calls.lookup k = some (.checked username) ∧
      t = { s with calls := s.calls.insert k (.verified username true) }) ∨
    (∃ k username, a = .verify k false ∧ s.calls.lookup k = some (.checked username) ∧
      t = { s with
        calls := s.calls.insert k (.verified username false)
        tried := Function.update s.tried username (s.tried username ++ [s.now]) }) ∨
    (∃ k username, a = .finish k ∧ s.calls.lookup k = some (.verified username false) ∧
      t = { s with
        calls := s.calls.erase k
        failures := s.failures.insert username (failedOnce s username) }) ∨
    (∃ k username, a = .finish k ∧ s.calls.lookup k = some (.verified username true) ∧
      t = { s with
        calls := s.calls.erase k
        failures := s.failures.erase username
        tried := Function.update s.tried username [] }) := by
  cases a with
  | tick ns => exact .inl ⟨ns, rfl, (Option.some.inj h).symm⟩
  | login k username =>
      simp only [step, login] at h
      split at h
      · cases h
      · rename_i hfree
        split at h
        · exact .inr (.inl ⟨k, username, rfl, (Option.some.inj h).symm⟩)
        · rename_i hwait
          exact .inr (.inr (.inl ⟨k, username, rfl, hfree, hwait, (Option.some.inj h).symm⟩))
  | verify k right =>
      simp only [step, verify] at h
      split at h
      · rename_i username hcall
        have ht := (Option.some.inj h).symm
        cases right with
        | true => exact .inr (.inr (.inr (.inl ⟨k, username, rfl, hcall, ht⟩)))
        | false => exact .inr (.inr (.inr (.inr (.inl ⟨k, username, rfl, hcall, ht⟩))))
      · cases h
  | finish k =>
      simp only [step, finish] at h
      split at h
      · rename_i username hcall
        have ht := (Option.some.inj h).symm
        exact .inr (.inr (.inr (.inr (.inr (.inl ⟨k, username, rfl, hcall, ht⟩)))))
      · rename_i username hcall
        have ht := (Option.some.inj h).symm
        exact .inr (.inr (.inr (.inr (.inr (.inr ⟨k, username, rfl, hcall, ht⟩)))))
      · cases h

theorem lookup_insert_other {calls : AssocMap Nat Call} {k : Nat} {put : Call}
    {username : String} (hput : put.username ≠ username)
    (hold : ∀ call, calls.lookup k = some call → call.username ≠ username) (j : Nat)
    (call : Call) (hcall : call.username = username) :
    (calls.insert k put).lookup j = some call ↔ calls.lookup j = some call := by
  by_cases hj : j = k
  · subst hj
    rw [AList.lookup_insert]
    constructor
    · intro h
      obtain rfl := Option.some.inj h
      exact absurd hcall hput
    · intro h
      exact absurd hcall (hold _ h)
  · rw [AList.lookup_insert_ne hj]

theorem lookup_erase_other {calls : AssocMap Nat Call} {k : Nat} {username : String}
    (hold : ∀ call, calls.lookup k = some call → call.username ≠ username) (j : Nat)
    (call : Call) (hcall : call.username = username) :
    (calls.erase k).lookup j = some call ↔ calls.lookup j = some call := by
  by_cases hj : j = k
  · subst hj
    rw [AList.lookup_erase]
    constructor
    · intro h
      cases h
    · intro h
      exact absurd hcall (hold _ h)
  · rw [AList.lookup_erase_ne hj]

/-- The clock apart, a step leaves everything that the login of another name goes by. -/
theorem step_frame {s t : State} {a : Action} {username : String} (h : step s a = some t)
    (hother : s.subject a ≠ some username) :
    t.failures.lookup username = s.failures.lookup username ∧
      t.tried username = s.tried username ∧
      (∀ k call, call.username = username →
        (t.calls.lookup k = some call ↔ s.calls.lookup k = some call)) ∧ s.now ≤ t.now := by
  obtain ⟨ns, rfl, rfl⟩ | ⟨k, other, rfl, rfl⟩ | ⟨k, other, rfl, hfree, -, rfl⟩ |
    ⟨k, other, rfl, hcall, rfl⟩ | ⟨k, other, rfl, hcall, rfl⟩ | ⟨k, other, rfl, hcall, rfl⟩ |
    ⟨k, other, rfl, hcall, rfl⟩ := step_cases h
  · exact ⟨rfl, rfl, fun _ _ _ => Iff.rfl, Nat.le_add_right _ _⟩
  · exact ⟨rfl, rfl, fun _ _ _ => Iff.rfl, le_refl _⟩
  · have hne : other ≠ username := by simpa [State.subject] using hother
    refine ⟨rfl, rfl, lookup_insert_other hne ?_, le_refl _⟩
    intro call hcall
    rw [hfree] at hcall
    cases hcall
  all_goals
    have hne : other ≠ username := by simpa [State.subject, hcall, Call.username] using hother
    have hold : ∀ call, s.calls.lookup k = some call → call.username ≠ username := by
      intro call hlookup
      obtain rfl := Option.some.inj (hcall.symm.trans hlookup)
      exact hne
  · exact ⟨rfl, rfl, lookup_insert_other hne hold, le_refl _⟩
  · exact ⟨rfl, Function.update_of_ne hne.symm _ _, lookup_insert_other hne hold, le_refl _⟩
  · exact ⟨AList.lookup_insert_ne hne.symm, rfl, lookup_erase_other hold, le_refl _⟩
  · exact ⟨AList.lookup_erase_ne hne.symm, Function.update_of_ne hne.symm _ _,
      lookup_erase_other hold, le_refl _⟩

theorem backoff_none {s : State} {username : String} {f : Failures}
    (h : backoff s username = none) (hf : s.failures.lookup username = some f)
    (hfree : freeAttempts < f.count.toNat) (hlast : f.last ≤ s.now) :
    f.last + waitFor f.count.toNat ≤ s.now := by
  simp only [backoff, hf, Option.bind_some] at h
  rw [if_neg (by omega)] at h
  split at h
  · cases h
  · omega

/-- A call that moves on keeps its name. -/
theorem Inv.alone_insert {s : State} (hinv : Inv s) {n : Nat} {old put : Call}
    (hold : s.calls.lookup n = some old) {k j : Nat} {call other : Call}
    (hk : (s.calls.insert n put).lookup k = some call)
    (hj : (s.calls.insert n put).lookup j = some other)
    (hput : put.username = old.username) (hname : call.username = other.username) : k = j := by
  rcases AssocMap.of_lookup_insert hk with ⟨rfl, rfl⟩ | ⟨-, hkept⟩ <;>
    rcases AssocMap.of_lookup_insert hj with ⟨rfl, rfl⟩ | ⟨-, hjkept⟩
  · rfl
  · exact hinv.alone _ _ _ _ hold hjkept (hput.symm.trans hname)
  · exact hinv.alone _ _ _ _ hkept hold (hname.trans hput)
  · exact hinv.alone k j call other hkept hjkept hname

/-- One call a name is kept by every careful step. -/
theorem Inv.alone_step {s t : State} {a : Action} (hinv : Inv s) (hok : Careful s a)
    (h : step s a = some t) {k j : Nat} {call other : Call} (hk : t.calls.lookup k = some call)
    (hj : t.calls.lookup j = some other) (hname : call.username = other.username) : k = j := by
  obtain ⟨ns, rfl, rfl⟩ | ⟨n, username, rfl, rfl⟩ | ⟨n, username, rfl, hfree, -, rfl⟩ |
    ⟨n, username, rfl, hcall, rfl⟩ | ⟨n, username, rfl, hcall, rfl⟩ |
    ⟨n, username, rfl, hcall, rfl⟩ | ⟨n, username, rfl, hcall, rfl⟩ := step_cases h
  · exact hinv.alone k j call other hk hj hname
  · exact hinv.alone k j call other hk hj hname
  · rcases AssocMap.of_lookup_insert hk with ⟨rfl, rfl⟩ | ⟨-, hkept⟩ <;>
      rcases AssocMap.of_lookup_insert hj with ⟨rfl, rfl⟩ | ⟨-, hjkept⟩
    · rfl
    · exact absurd hname.symm (hok _ (AssocMap.mem_values.mpr ⟨j, hjkept⟩))
    · exact absurd hname (hok _ (AssocMap.mem_values.mpr ⟨k, hkept⟩))
    · exact hinv.alone k j call other hkept hjkept hname
  · exact hinv.alone_insert hcall hk hj rfl hname
  · exact hinv.alone_insert hcall hk hj rfl hname
  · exact hinv.alone k j call other (AssocMap.of_lookup_erase hk).2
      (AssocMap.of_lookup_erase hj).2 hname
  · exact hinv.alone k j call other (AssocMap.of_lookup_erase hk).2
      (AssocMap.of_lookup_erase hj).2 hname

/-- The call of a name under way is its only one. -/
theorem Inv.stage {s : State} (hinv : Inv s) {k j : Nat} {call other : Call}
    (hk : s.calls.lookup k = some call) (hj : s.calls.lookup j = some other)
    (hname : call.username = other.username) : other = call := by
  obtain rfl := hinv.alone k j call other hk hj hname
  exact Option.some.inj (hj.symm.trans hk)

theorem counted_of_lookup {s : State} {username : String} {f : Failures}
    (hf : s.failures.lookup username = some f) : s.counted username = f.count.toNat := by
  rw [State.counted, hf]
  rfl

theorem Paced.login {s : State} {k : Nat} {username : String} (h : Paced s username)
    (hfree : s.calls.lookup k = none) (hwait : backoff s username = none) :
    Paced { s with calls := s.calls.insert k (.checked username) } username := by
  refine ⟨h.spaced, h.past, ?_, ?_, h.lastPast, h.before, ?_⟩
  · intro hnone
    refine h.settled fun j hj => hnone j ?_
    have hjk : j ≠ k := by
      rintro rfl
      rw [hfree] at hj
      cases hj
    exact (AList.lookup_insert_ne hjk).trans hj
  · intro j hj
    rcases AssocMap.of_lookup_insert hj with ⟨-, heq⟩ | ⟨-, hj⟩
    · cases heq
    · exact h.pending j hj
  · intro j f hj hf hpast
    exact backoff_none hwait hf hpast (h.lastPast f hf)

theorem Paced.verifyRight {s : State} (hinv : Inv s) {k : Nat} {username : String}
    (hcall : s.calls.lookup k = some (.checked username)) :
    Paced { s with calls := s.calls.insert k (.verified username true) } username := by
  have h := hinv.paced username
  have hnone : ∀ j, s.calls.lookup j ≠ some (.verified username false) := by
    intro j hj
    cases hinv.stage hcall hj rfl
  refine ⟨h.spaced, h.past, fun _ => h.settled hnone, ?_, h.lastPast, h.before, ?_⟩
  · intro j hj
    rcases AssocMap.of_lookup_insert hj with ⟨-, heq⟩ | ⟨-, hj⟩
    · cases heq
    · exact absurd hj (hnone j)
  · intro j f hj hf hpast
    exact h.waited k f hcall hf hpast

/-- The wait that the check has seen lies between the last wrong password and this one. -/
theorem Paced.verifyWrong {s : State} (hinv : Inv s) {k : Nat} {username : String}
    (hcall : s.calls.lookup k = some (.checked username)) :
    Paced { s with
      calls := s.calls.insert k (.verified username false)
      tried := Function.update s.tried username (s.tried username ++ [s.now]) } username := by
  have h := hinv.paced username
  have hlength := h.settled fun j hj => by cases hinv.stage hcall hj rfl
  constructor
  · simp only [Function.update_self]
    apply h.spaced.concat
    intro t hfree ht
    cases hf : s.failures.lookup username with
    | none =>
        rw [State.counted, hf] at hlength
        rw [hlength] at hfree
        exact absurd hfree (by decide)
    | some f =>
        rw [counted_of_lookup hf] at hlength
        rw [hlength] at hfree ⊢
        have hwaited := h.waited k f hcall hf hfree
        have hbefore := h.before f hf t
          (by rw [← hlength, List.take_length]; exact List.mem_of_getLast? ht)
        omega
  · simp only [Function.update_self]
    intro t ht
    rcases List.mem_append.mp ht with ht | ht
    · exact h.past t ht
    · exact (List.mem_singleton.mp ht).le
  · intro hnone
    exact absurd (AList.lookup_insert _) (hnone k)
  · intro j hj
    simp only [Function.update_self, List.length_append, List.length_singleton, hlength]
    rfl
  · exact h.lastPast
  · intro f hf
    simp only [Function.update_self]
    have hcount : f.count.toNat = (s.tried username).length := by
      rw [hlength]
      exact (counted_of_lookup hf).symm
    rw [List.take_append_of_le_length hcount.le]
    exact h.before f hf
  · intro j f hj hf hpast
    exact h.waited k f hcall hf hpast

theorem Paced.finishWrong {s : State} (hinv : Inv s) {k : Nat} {username : String}
    (hcall : s.calls.lookup k = some (.verified username false))
    (hroom : s.counted username < 4294967295) :
    Paced { s with
      calls := s.calls.erase k
      failures := s.failures.insert username (failedOnce s username) } username := by
  have h := hinv.paced username
  have hlength := h.pending k hcall
  have hnone : ∀ j call, (s.calls.erase k).lookup j = some call → call.username ≠ username := by
    intro j call hj hname
    obtain ⟨hne, hj⟩ := AssocMap.of_lookup_erase hj
    exact hne (hinv.alone j k _ _ hj hcall hname)
  have hcount : (failedOnce s username).count.toNat = s.counted username + 1 := by
    rw [failedOnce, UInt32.toNat_add]
    exact Nat.mod_eq_of_lt (by unfold State.counted at hroom; exact Nat.succ_lt_succ hroom)
  refine ⟨h.spaced, h.past, ?_, ?_, ?_, ?_, ?_⟩
  · intro _
    rw [counted_of_lookup (AList.lookup_insert _), hcount]
    exact hlength
  · intro j hj
    exact absurd rfl (hnone j _ hj)
  · intro f hf
    obtain rfl := Option.some.inj ((AList.lookup_insert _).symm.trans hf)
    exact le_refl _
  · intro f hf t ht
    obtain rfl := Option.some.inj ((AList.lookup_insert _).symm.trans hf)
    exact h.past t (List.mem_of_mem_take ht)
  · intro j f hj
    exact absurd rfl (hnone j _ hj)

theorem Paced.finishRight {s : State} (hinv : Inv s) {k : Nat} {username : String}
    (hcall : s.calls.lookup k = some (.verified username true)) :
    Paced { s with
      calls := s.calls.erase k
      failures := s.failures.erase username
      tried := Function.update s.tried username [] } username := by
  have hnone : ∀ j call, (s.calls.erase k).lookup j = some call → call.username ≠ username := by
    intro j call hj hname
    obtain ⟨hne, hj⟩ := AssocMap.of_lookup_erase hj
    exact hne (hinv.alone j k _ _ hj hcall hname)
  have hgone : (s.failures.erase username).lookup username = none := AList.lookup_erase _ _
  constructor
  · simpa using spaced_nil
  · simp
  · intro _
    simp [State.counted, hgone]
  · intro j hj
    exact absurd rfl (hnone j _ hj)
  · intro f hf
    rw [hgone] at hf
    cases hf
  · intro f hf
    rw [hgone] at hf
    cases hf
  · intro j f hj
    exact absurd rfl (hnone j _ hj)

theorem Inv.step {s t : State} {a : Action} (hinv : Inv s) (hok : Careful s a)
    (h : step s a = some t) : Inv t := by
  refine ⟨fun k j call other => hinv.alone_step hok h, ?_⟩
  intro username
  by_cases hsubject : s.subject a = some username
  · obtain ⟨ns, rfl, rfl⟩ | ⟨k, other, rfl, rfl⟩ | ⟨k, other, rfl, hfree, hwait, rfl⟩ |
      ⟨k, other, rfl, hcall, rfl⟩ | ⟨k, other, rfl, hcall, rfl⟩ | ⟨k, other, rfl, hcall, rfl⟩ |
      ⟨k, other, rfl, hcall, rfl⟩ := step_cases h
    · cases hsubject
    · exact hinv.paced username
    · obtain rfl := Option.some.inj hsubject
      exact (hinv.paced other).login hfree hwait
    all_goals
      obtain rfl : other = username := by
        simpa [State.subject, hcall, Call.username] using hsubject
    · exact Paced.verifyRight hinv hcall
    · exact Paced.verifyWrong hinv hcall
    · exact Paced.finishWrong hinv hcall (hok other hsubject)
    · exact Paced.finishRight hinv hcall
  · obtain ⟨hfailures, htried, hcalls, hnow⟩ := step_frame h hsubject
    exact (hinv.paced username).frame hfailures htried hcalls hnow

theorem inv_start (now : Nat) : Inv (start now) := by
  constructor
  · intro k j call other hk
    cases hk
  · intro username
    refine ⟨spaced_nil, fun t ht => (nomatch ht), fun _ => rfl, ?_, ?_, ?_, ?_⟩
    · intro k hk
      cases hk
    · intro f hf
      cases hf
    · intro f hf
      cases hf
    · intro k f hk
      cases hk

end Attempts

section Results

/-- In a run that lets a name have one login at a time, the wrong passwords of every name
keep their distance in every state; and in every run a step about other names changes
neither the failures nor the wait of a name. -/
theorem tries_spaced {now : Nat} {acts : List Action} {t : State}
    (run : Run step Careful (start now) acts t) :
    Throughout step Throttled (start now) acts ∧
      ∀ s a next username, step s a = some next → s.subject a ≠ some username →
        next.failures.lookup username = s.failures.lookup username ∧
          next.tried username = s.tried username ∧
          (next.now = s.now → backoff next username = backoff s username) := by
  refine ⟨run.throughout (fun _ _ _ => Inv.step) ?_ (inv_start now), ?_⟩
  · intro s hinv username
    exact ⟨(hinv.paced username).spaced, (hinv.paced username).spaced.bounded⟩
  · intro s a next username hstep hother
    obtain ⟨hfailures, htried, -, -⟩ := step_frame hstep hother
    refine ⟨hfailures, htried, fun hnow => ?_⟩
    rw [backoff, backoff, hfailures, hnow]

/-- One attempt, from the check to the count. -/
def attempt (k : Nat) : List Action :=
  [.login k "admin", .verify k false, .finish k]

/-- Six attempts that are all checked before the first of them is counted. -/
def overlapping : List Action :=
  (List.range 6).map (fun k => .login k "admin") ++ (List.range 6).map (fun k => .verify k false)

/-- Four wrong passwords, a refused one, a second of patience and one more. -/
def patient : List Action :=
  attempt 0 ++ attempt 1 ++ attempt 2 ++ attempt 3 ++ [.login 4 "admin", .tick 1000000000] ++
    attempt 5

instance (s : State) (a : Action) : Decidable (Careful s a) :=
  match a with
  | .tick _ => isTrue trivial
  | .login _ username => inferInstanceAs (Decidable (∀ call ∈ s.calls.values, _ ≠ username))
  | .verify _ _ => isTrue trivial
  | .finish k =>
      match h : s.subject (.finish k) with
      | none => isTrue fun username hsome => by
          rw [h] at hsome
          cases hsome
      | some username =>
          decidable_of_iff (s.counted username < 4294967295) (by
            simp only [Careful, h]
            exact ⟨fun hroom _ heq => Option.some.inj heq ▸ hroom, fun hall => hall _ rfl⟩)

theorem patient_spaced :
    (∃ t, checkedRun step Careful (start 0) patient = some t ∧
      t.tried "admin" = [0, 0, 0, 0, 1000000000]) ∧
      Throughout step Throttled (start 0) patient := by
  have hrun : ((checkedRun step Careful (start 0) patient).map fun t => t.tried "admin") =
      some [0, 0, 0, 0, 1000000000] := by decide
  obtain ⟨t, ht, htried⟩ := Option.map_eq_some_iff.mp hrun
  exact ⟨⟨t, ht, htried⟩, (tries_spaced (run_of_checkedRun ht)).1⟩

/-- Six wrong passwords are verified at one moment. -/
theorem overlapping_attempts_unthrottled :
    ¬∀ now acts t, Run step (fun _ _ => True) (start now) acts t → Throttled t := by
  intro hall
  have hrun : ((checkedRun step (fun _ _ => True) (start 0) overlapping).map
      fun t => t.tried "admin") = some [0, 0, 0, 0, 0, 0] := by decide
  obtain ⟨t, ht, htried⟩ := Option.map_eq_some_iff.mp hrun
  have hspaced := (hall 0 overlapping t (run_of_checkedRun ht) "admin").1
  rw [htried] at hspaced
  exact absurd (hspaced 4 0 0 (by decide) rfl rfl) (by decide)

end Results

end TimeLake.Auth.Throttle
