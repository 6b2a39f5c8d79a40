import TimeLake.S3.Shared
import TimeLake.Library.Run

/-!
Conditional puts that race for a key, over any service. A request may be answered
late or never while its object is there, and the SDK then repeats it. So one that
is told it lost may have lost to itself; but no two are told that they created the
object, and an object that is new is one that a call of its key put there.
-/

namespace TimeLake.S3

open TimeLake.Library TimeLake.Encrypt
open TimeLake.Catalog (IoError)

variable {ω τ : Type} {S : Service ω τ}

/-- A call of `put_if_absent`. -/
structure Writer where
  store : S3Store
  path : String
  bytes : Bytes

def Writer.key (w : Writer) : String := w.store.key w.path

/-- How far it is: at its `attempt`-th request or done, and whether an answer to it
was lost. -/
structure Tries where
  attempt : Nat
  result : Option (Except IoError Bool)
  unheard : Bool

structure Contest (ι : Type) where
  bucket : Bucket
  tries : ι → Tries

/-- Where a call is after an answer; the SDK may repeat a request that has none. -/
def Tries.after (t : Tries) (answer : Except S3Error Unit) (repeats : Bool) : Tries :=
  let unheard := t.unheard || answer = .error .unanswered
  if answer = .error .unanswered ∧ repeats then { t with unheard }
  else
    match verdict t.attempt answer with
    | .returns result => ⟨t.attempt, some result, unheard⟩
    | .again => ⟨t.attempt + 1, none, unheard⟩

/-- What happens next to a call: an attempt that is served, or the landing of one that
was given up. -/
inductive Event (ω : Type) where
  | attempt (w : ω) (repeats : Bool)
  | late (w : ω)

variable {ι : Type} [DecidableEq ι]

def Contest.set (c : Contest ι) (i : ι) (bucket : Bucket) (t : Tries) : Contest ι :=
  ⟨bucket, Function.update c.tries i t⟩

def Contest.step (S : Service ω τ) (writers : ι → Writer) (c : Contest ι) :
    ι × Event ω → Option (Contest ι)
  | (i, .attempt w repeats) =>
      if (c.tries i).result.isSome then none
      else
        let answer := S.write w c.bucket (.putIfNoneMatch (writers i).key (writers i).bytes)
        some (c.set i answer.1 ((c.tries i).after answer.2 repeats))
  | (i, .late w) =>
      if (c.tries i).unheard then
        some { c with
          bucket := (S.write w c.bucket (.putIfNoneMatch (writers i).key (writers i).bytes)).1 }
      else none

def Contest.start (bucket : Bucket) : Contest ι := ⟨bucket, fun _ => ⟨0, none, false⟩⟩

/-- What a call is told after an answer, and that it keeps in mind a lost one. -/
theorem Tries.after_cases {t : Tries} (answer : Except S3Error Unit) (repeats : Bool)
    (htried : t.attempt ≤ 4) (hopen : t.result = none) :
    (t.after answer repeats).attempt ≤ 4 ∧
    (t.unheard = true → (t.after answer repeats).unheard = true) ∧
    (answer = .error .unanswered → (t.after answer repeats).unheard = true) ∧
    (answer = .ok () → (t.after answer repeats).result = some (.ok true)) ∧
    ((t.after answer repeats).result = some (.ok true) → answer = .ok ()) ∧
    ((t.after answer repeats).result = some (.ok false) →
      answer = .error .preconditionFailed) := by
  obtain ⟨attempt, result, unheard⟩ := t
  obtain rfl : result = none := hopen
  rcases answer with (_ | _ | _ | _ | _ | _) | _
  case error.unanswered => cases repeats <;> simp [Tries.after, verdict, htried]
  case error.conditionalConflict =>
    by_cases hfew : attempt < 4
    · have hnext : Tries.after ⟨attempt, none, unheard⟩ (.error .conditionalConflict) repeats =
          ⟨attempt + 1, none, unheard⟩ := by simp [Tries.after, verdict, hfew]
      rw [hnext]
      exact ⟨hfew, id, nofun, nofun, nofun, nofun⟩
    · simp [Tries.after, verdict, hfew, htried]
  all_goals simp [Tries.after, verdict, htried]

theorem Contest.set_tries (c : Contest ι) (i j : ι) (bucket : Bucket) (t : Tries) :
    (c.set i bucket t).tries j = if j = i then t else c.tries j := by
  by_cases hj : j = i
  · subst hj
    simp [Contest.set]
  · simp [Contest.set, hj]

theorem Contest.set_set (c : Contest ι) (i : ι) (a b : Bucket) (t u : Tries) :
    (c.set i a t).set i b u = c.set i b u := by simp [Contest.set]

section Alone

variable {i : ι}

/-- The attempts of one request, one after the other. -/
theorem sendWrite_run (S : Service ω τ) (writers : ι → Writer) {ws : List ω} (hws : ws ≠ [])
    (c : Contest ι) (hopen : (c.tries i).result = none) : ∃ attempts unheard,
      Run (Contest.step S writers) (fun _ _ => True) c attempts
        (c.set i (S.sendWrite (.putIfNoneMatch (writers i).key (writers i).bytes) ws c.bucket).1
          (Tries.after ⟨(c.tries i).attempt, none, unheard⟩
            (S.sendWrite (.putIfNoneMatch (writers i).key (writers i).bytes) ws c.bucket).2
            false)) := by
  induction ws generalizing c with
  | nil => exact absurd rfl hws
  | cons w ws ih =>
      have htries : c.tries i = ⟨(c.tries i).attempt, none, (c.tries i).unheard⟩ := by
        rw [← hopen]
      have hstep : ∀ repeats, c.step S writers (i, .attempt w repeats) = some (c.set i
          (S.write w c.bucket (.putIfNoneMatch (writers i).key (writers i).bytes)).1
          (Tries.after ⟨(c.tries i).attempt, none, (c.tries i).unheard⟩
            (S.write w c.bucket (.putIfNoneMatch (writers i).key (writers i).bytes)).2
            repeats)) := by
        intro repeats
        rw [← htries]
        simp [Contest.step, hopen]
      rw [Service.sendWrite]
      split
      · next bucket hanswer =>
          rw [hanswer] at hstep
          cases ws with
          | nil => exact ⟨_, _, .cons trivial (hstep false) (.nil _)⟩
          | cons w' ws =>
              have hnext : (c.set i bucket ⟨(c.tries i).attempt, none, true⟩).tries i =
                  ⟨(c.tries i).attempt, none, true⟩ := by simp [Contest.set]
              obtain ⟨attempts, unheard, hrun⟩ := ih (by simp)
                (c.set i bucket ⟨(c.tries i).attempt, none, true⟩) (by rw [hnext])
              rw [hnext, Contest.set_set] at hrun
              refine ⟨_, unheard, .cons trivial ((hstep true).trans ?_) hrun⟩
              simp [Tries.after]
      · exact ⟨_, _, .cons trivial (hstep false) (.nil _)⟩

/-- The fifth request is the last. -/
theorem verdict_last {attempt : Nat} (h : 4 ≤ attempt) (answer : Except S3Error Unit) :
    ∃ result, verdict attempt answer = .returns result := by
  rcases answer with (_ | _ | _ | _ | _ | _) | _
  case error.conditionalConflict => exact ⟨_, if_neg (Nat.not_lt.mpr h)⟩
  all_goals exact ⟨_, rfl⟩

/-- A call of `put_if_absent` by itself is a run of its attempts. -/
theorem putIfAbsent_run (S : Service ω τ) (writers : ι → Writer) {w : Nat → List ω}
    (hw : ∀ n, w n ≠ []) (bucket : Bucket) : ∃ attempts c,
      Run (Contest.step S writers) (fun _ _ => True) (.start bucket) attempts c ∧
        (writers i).store.putIfAbsent S w bucket (writers i).path (writers i).bytes =
          (c.bucket, ((c.tries i).result.getD (.error .other))) ∧
        (c.tries i).result.isSome := by
  have hloop : ∀ more attempt (c : Contest ι), attempt + more = 4 →
      (c.tries i).attempt = attempt → (c.tries i).result = none → ∃ attempts c',
      Run (Contest.step S writers) (fun _ _ => True) c attempts c' ∧
        (writers i).store.attemptPut S w (writers i).path (writers i).bytes more attempt c.bucket =
          (c'.bucket, ((c'.tries i).result.getD (.error .other))) ∧
        (c'.tries i).result.isSome := by
    intro more
    induction more with
    | zero =>
        intro attempt c hsum hattempt hopen
        obtain ⟨attempts, unheard, hrun⟩ := sendWrite_run S writers (hw attempt) c hopen
        refine ⟨attempts, _, hrun, ?_⟩
        rw [Contest.set_tries, if_pos rfl, S3Store.attemptPut, hattempt]
        obtain ⟨result, hresult⟩ := verdict_last (show 4 ≤ attempt by omega)
          (S.sendWrite (.putIfNoneMatch (writers i).key (writers i).bytes) (w attempt) c.bucket).2
        simp only [Writer.key] at hresult ⊢
        simp [Tries.after, hresult, Contest.set]
    | succ more ih =>
        intro attempt c hsum hattempt hopen
        obtain ⟨attempts, unheard, hrun⟩ := sendWrite_run S writers (hw attempt) c hopen
        rw [S3Store.attemptPut]
        simp only [Writer.key, hattempt] at hrun ⊢
        split
        · next result hresult =>
            refine ⟨attempts, _, hrun, ?_⟩
            rw [Contest.set_tries, if_pos rfl]
            simp only [Tries.after, hresult, Bool.false_eq_true, and_false, if_false]
            exact ⟨rfl, rfl⟩
        · next hagain =>
            set next := c.set i _ _ with hnext
            have htries : (next.tries i).attempt = attempt + 1 ∧ (next.tries i).result = none := by
              rw [hnext, Contest.set_tries, if_pos rfl]
              simp only [Tries.after, hagain, Bool.false_eq_true, and_false, if_false, and_self]
            obtain ⟨later, c', hlater, hc'⟩ :=
              ih (attempt + 1) next (by omega) htries.1 htries.2
            exact ⟨attempts ++ later, c', hrun.append hlater, hc'⟩
  exact hloop 4 0 _ rfl rfl rfl

end Alone

/-- The call was told that it created its object. -/
def Contest.Told (c : Contest ι) (i : ι) : Prop := (c.tries i).result = some (.ok true)

/-- What has become of the objects of the calls. -/
structure Elected (writers : ι → Writer) (before : Bucket) (c : Contest ι) : Prop where
  told : ∀ i, c.Told i → before.lookup (writers i).key = none ∧
    c.bucket.lookup (writers i).key = some (writers i).bytes
  one : ∀ i j, c.Told i → c.Told j → (writers i).key = (writers j).key → i = j
  refused : ∀ i, (c.tries i).result = some (.ok false) →
    (c.bucket.lookup (writers i).key).isSome = true
  kept : ∀ k bytes, before.lookup k = some bytes → c.bucket.lookup k = some bytes
  made : ∀ k bytes, c.bucket.lookup k = some bytes → before.lookup k = none →
    ∃ i, (writers i).key = k ∧ (writers i).bytes = bytes ∧
      (c.Told i ∨ (c.tries i).unheard = true)
  tried : ∀ i, (c.tries i).attempt ≤ 4

variable {writers : ι → Writer} {before bucket : Bucket} {c : Contest ι} {i : ι} {t : Tries}

/-- An attempt that changes nothing elects nobody. -/
theorem Elected.settle (h : Elected writers before c) (hopen : (c.tries i).result = none)
    (hsame : ∀ k, bucket.lookup k = c.bucket.lookup k) (htried : t.attempt ≤ 4)
    (hunheard : (c.tries i).unheard = true → t.unheard = true)
    (hnot : t.result ≠ some (.ok true))
    (hrefused : t.result = some (.ok false) → (c.bucket.lookup (writers i).key).isSome = true) :
    Elected writers before (c.set i bucket t) := by
  have htold : ∀ j, (c.set i bucket t).Told j ↔ c.Told j := by
    intro j
    rw [Contest.Told, Contest.Told, Contest.set_tries]
    split
    · next heq => simp [heq, hopen, hnot]
    · exact Iff.rfl
  have hobject : ∀ k, (c.set i bucket t).bucket.lookup k = c.bucket.lookup k := hsame
  refine ⟨?_, fun j k hj hk => h.one j k ((htold j).mp hj) ((htold k).mp hk), ?_, ?_, ?_, ?_⟩
  · intro j hj
    rw [hobject]
    exact h.told j ((htold j).mp hj)
  · intro j hj
    rw [Contest.set_tries] at hj
    rw [hobject]
    split at hj
    · next heq => exact heq ▸ hrefused hj
    · exact h.refused j hj
  · intro k bytes hk
    rw [hobject]
    exact h.kept k bytes hk
  · intro k bytes hk hnew
    rw [hobject] at hk
    obtain ⟨j, hkey, hbytes, hj⟩ := h.made k bytes hk hnew
    refine ⟨j, hkey, hbytes, hj.imp (htold j).mpr fun hj => ?_⟩
    rw [Contest.set_tries]
    split
    · next heq => exact hunheard (heq ▸ hj)
    · exact hj
  · intro j
    rw [Contest.set_tries]
    split
    · exact htried
    · exact h.tried j

/-- An attempt that makes the object, told or not. -/
theorem Elected.create (h : Elected writers before c) (htried : t.attempt ≤ 4)
    (hfree : c.bucket.lookup (writers i).key = none)
    (hmade : bucket.lookup (writers i).key = some (writers i).bytes)
    (hsame : ∀ k, k ≠ (writers i).key → bucket.lookup k = c.bucket.lookup k)
    (hheard : t.result = some (.ok true) ∨ t.unheard = true)
    (hunheard : (c.tries i).unheard = true → t.unheard = true)
    (hnot : t.result ≠ some (.ok false)) : Elected writers before (c.set i bucket t) := by
  have hkept : ∀ k bytes, c.bucket.lookup k = some bytes → bucket.lookup k = some bytes := by
    intro k bytes hk
    rw [hsame k, hk]
    rintro rfl
    rw [hfree] at hk
    cases hk
  have hnew : before.lookup (writers i).key = none := by
    cases hbefore : before.lookup (writers i).key with
    | none => rfl
    | some bytes =>
        have hthere := h.kept _ _ hbefore
        rw [hfree] at hthere
        cases hthere
  have hother : ∀ j, c.Told j → (writers j).key ≠ (writers i).key := by
    intro j hj hkey
    have hthere := (h.told j hj).2
    rw [hkey, hfree] at hthere
    cases hthere
  have htold : ∀ j, (c.set i bucket t).Told j → j = i ∨ c.Told j := by
    intro j hj
    rw [Contest.Told, Contest.set_tries] at hj
    split at hj
    · next heq => exact .inl heq
    · exact .inr hj
  refine ⟨?_, ?_, ?_, fun k bytes hk => hkept k bytes (h.kept k bytes hk), ?_, ?_⟩
  · intro j hj
    rcases htold j hj with rfl | hj
    · exact ⟨hnew, hmade⟩
    · exact ⟨(h.told j hj).1, hkept _ _ (h.told j hj).2⟩
  · intro j k hj hk hkey
    rcases htold j hj with rfl | hold
    · rcases htold k hk with rfl | hold'
      · rfl
      · exact absurd hkey.symm (hother k hold')
    · rcases htold k hk with rfl | hold'
      · exact absurd hkey (hother j hold)
      · exact h.one j k hold hold' hkey
  · intro j hj
    rw [Contest.set_tries] at hj
    split at hj
    · exact absurd hj hnot
    · obtain ⟨bytes, hbytes⟩ := Option.isSome_iff_exists.mp (h.refused j hj)
      change (bucket.lookup _).isSome = true
      rw [hkept _ _ hbytes]
      rfl
  · intro k bytes hk hfresh
    by_cases hkey : k = (writers i).key
    · subst hkey
      refine ⟨i, rfl, Option.some.inj (hmade.symm.trans hk), ?_⟩
      rw [Contest.Told, Contest.set_tries, if_pos rfl]
      exact hheard
    · have hthere : c.bucket.lookup k = some bytes := (hsame k hkey).symm.trans hk
      obtain ⟨j, hj, hbytes, hmaker⟩ := h.made k bytes hthere hfresh
      have hne : j ≠ i := by
        rintro rfl
        exact hkey hj.symm
      refine ⟨j, hj, hbytes, ?_⟩
      rw [Contest.Told, Contest.set_tries, if_neg hne]
      exact hmaker
  · intro j
    rw [Contest.set_tries]
    split
    · exact htried
    · exact h.tried j

omit [DecidableEq ι] in
theorem Elected.congr (h : Elected writers before c)
    (hsame : ∀ k, bucket.lookup k = c.bucket.lookup k) :
    Elected writers before { c with bucket } where
  told i hi := ⟨(h.told i hi).1, (hsame _).trans (h.told i hi).2⟩
  one := h.one
  refused i hi := (congrArg Option.isSome (hsame _)).trans (h.refused i hi)
  kept k bytes hk := (hsame k).trans (h.kept k bytes hk)
  made k bytes hk := h.made k bytes ((hsame k).symm.trans hk)
  tried := h.tried

theorem Elected.attempt (hS : S.Separate) (hC : S.Conditional) (h : Elected writers before c)
    (hopen : (c.tries i).result = none) (w : ω) (repeats : Bool) :
    Elected writers before (c.set i
      (S.write w c.bucket (.putIfNoneMatch (writers i).key (writers i).bytes)).1
      ((c.tries i).after
        (S.write w c.bucket (.putIfNoneMatch (writers i).key (writers i).bytes)).2 repeats)) := by
  set r : Write := .putIfNoneMatch (writers i).key (writers i).bytes with hr
  obtain ⟨htried, hunheard, hlost, hok, htold, hfalse⟩ :=
    Tries.after_cases (S.write w c.bucket r).2 repeats (h.tried i) hopen
  have helse : ∀ k, k ≠ (writers i).key →
      (S.write w c.bucket r).1.lookup k = c.bucket.lookup k := hS.elsewhere w c.bucket r
  rcases hC.effect w c.bucket (writers i).key (writers i).bytes with hsame | ⟨hfree, hmade, hheard⟩
  · refine h.settle hopen ?_ htried hunheard ?_ ?_
    · intro k
      by_cases hk : k = (writers i).key
      · rw [hk]
        exact hsame
      · exact helse k hk
    · intro hresult
      obtain ⟨hfree, hmade⟩ := hC.created w c.bucket _ _ (htold hresult)
      rw [hmade, hfree] at hsame
      cases hsame
    · exact fun hresult => hC.refused w c.bucket _ _ (hfalse hresult)
  · refine h.create htried hfree hmade helse ?_ hunheard ?_
    · rcases List.mem_cons.mp hheard with hdone | hsilent
      · exact .inl (hok hdone)
      · exact .inr (hlost (List.mem_singleton.mp hsilent))
    · intro hresult
      have hthere := hC.refused w c.bucket _ _ (hfalse hresult)
      rw [hfree] at hthere
      cases hthere

/-- A late landing is one more write of a call that has lost an answer. -/
theorem Elected.late (hS : S.Separate) (hC : S.Conditional) (h : Elected writers before c)
    (hunheard : (c.tries i).unheard = true) (w : ω) :
    Elected writers before
      { c with
        bucket := (S.write w c.bucket (.putIfNoneMatch (writers i).key (writers i).bytes)).1 } := by
  have helse : ∀ k, k ≠ (writers i).key →
      (S.write w c.bucket (.putIfNoneMatch (writers i).key (writers i).bytes)).1.lookup k =
        c.bucket.lookup k :=
    hS.elsewhere w c.bucket (.putIfNoneMatch (writers i).key (writers i).bytes)
  rcases hC.effect w c.bucket (writers i).key (writers i).bytes with hsame | ⟨hfree, hmade, _⟩
  · refine h.congr fun k => ?_
    by_cases hk : k = (writers i).key
    · rw [hk]
      exact hsame
    · exact helse k hk
  · have hself : ∀ bucket, c.set i bucket (c.tries i) = { c with bucket } := by
      intro bucket
      simp [Contest.set]
    rw [← hself]
    refine h.create (h.tried i) hfree hmade helse (.inr hunheard) id fun hresult => ?_
    have hthere := h.refused i hresult
    rw [hfree] at hthere
    cases hthere

theorem Elected.step {c' : Contest ι} {a : ι × Event ω} (hS : S.Separate) (hC : S.Conditional)
    (h : Elected writers before c) (hstep : c.step S writers a = some c') :
    Elected writers before c' := by
  obtain ⟨i, event⟩ := a
  cases event with
  | attempt w repeats =>
      obtain ⟨hdone, hstep⟩ := Option.ite_none_left_eq_some.mp hstep
      obtain rfl := Option.some.inj hstep
      exact h.attempt hS hC (by simpa using hdone) w repeats
  | late w =>
      obtain ⟨hunheard, hstep⟩ := Option.ite_none_right_eq_some.mp hstep
      obtain rfl := Option.some.inj hstep
      exact h.late hS hC hunheard w

/-- In every run of conditional puts, whose requests may be refused, stay without an
answer, land late and are tried again by the SDK and after a conflict: nothing that
was there is touched; of the calls for a key at most one is told that it created the
object, and then its bytes are there; an object that is new is one of the calls', who
was told so or has lost an answer; and a call that is told otherwise finds an object. -/
theorem one_creates (S : Service ω τ) (hS : S.Separate) (hC : S.Conditional)
    (writers : ι → Writer) (bucket : Bucket) (events : List (ι × Event ω)) (c : Contest ι)
    (run : Run (Contest.step S writers) (fun _ _ => True) (.start bucket) events c) :
    Elected writers bucket c := by
  refine run.invariant (P := Elected writers bucket) (fun _ _ _ h _ hs => h.step hS hC hs) ?_
  refine ⟨?_, ?_, ?_, fun _ _ h => h, ?_, fun _ => Nat.zero_le _⟩
  · intro i hi
    cases hi
  · intro i j hi
    cases hi
  · intro i hi
    cases hi
  · intro k bytes hk hnone
    rw [Contest.start, hnone] at hk
    cases hk

def twoWriters (second : Bool) : Writer := ⟨twoLakes false, "m", if second then [2] else [1]⟩

/-- The first one creates the object and does not hear of it; repeated, its request
meets the object. -/
theorem twoWriters_elect : ∃ c,
    Run (Contest.step (plainService 1) twoWriters) (fun _ _ => True) (.start ∅)
      [(true, .attempt .busy false), (false, .attempt .unheard true),
        (true, .attempt .fair false), (false, .attempt .fair false), (false, .late .fair)] c ∧
    (c.tries false).result = some (.ok false) ∧ (c.tries true).result = some (.ok false) ∧
    Elected twoWriters ∅ c := by
  have hrun : Run (Contest.step (plainService 1) twoWriters) (fun _ _ => True) (.start ∅)
      [(true, .attempt .busy false), (false, .attempt .unheard true),
        (true, .attempt .fair false), (false, .attempt .fair false), (false, .late .fair)] _ :=
    .cons trivial rfl (.cons trivial rfl (.cons trivial rfl (.cons trivial rfl
      (.cons trivial rfl (.nil _)))))
  exact ⟨_, hrun, rfl, rfl,
    one_creates (plainService 1) (plainService_separate 1) (plainService_conditional 1) twoWriters
      ∅ _ _ hrun⟩

end TimeLake.S3
