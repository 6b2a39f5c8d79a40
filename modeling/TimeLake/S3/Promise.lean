import TimeLake.Encrypt.Promise
import TimeLake.S3.Shared
import TimeLake.Library.Run

/-!
`S3Store` against the promise of `trait Store`. Where a service tells the truth about its
objects, every run of the store's calls is a history: with requests that fail, are
repeated and lose their answers, some of which land after the call has ended.
-/

namespace TimeLake.S3

open TimeLake.Library TimeLake.Store TimeLake.Encrypt
open TimeLake.Catalog (IoError)

variable {ω τ : Type}

section Machine

variable (S : Service ω τ) (s : S3Store)

/-- The object of a path, for paths without a slash at either end. -/
def S3Store.objects (bucket : Bucket) : Objects := fun path => bucket.lookup (s.keyPrefix ++ path)

/-- The request of a call that writes. -/
def S3Store.request : Call → Option Write
  | .put path bytes => some (.putObject (s.key path) bytes)
  | .putIfAbsent path bytes => some (.putIfNoneMatch (s.key path) bytes)
  | .delete path => some (.deleteObject (s.key path))
  | .get _ | .getRange .. | .size _ | .list _ => none

/-- An attempt of a request stays without an answer. -/
def Service.unheard (r : Write) : List ω → Bucket → Bool
  | [], _ => false
  | w :: _, bucket => (S.write w bucket r).2 = .error .unanswered

/-- The same of one of the requests of `attemptPut`. -/
def S3Store.lostPut (w : Nat → List ω) (r : Write) : Nat → Nat → Bucket → Bool
  | more, attempt, bucket =>
      S.unheard r (w attempt) bucket ||
        match verdict attempt (S.sendWrite r (w attempt) bucket).2, more with
        | .again, more + 1 =>
            lostPut w r more (attempt + 1) (S.sendWrite r (w attempt) bucket).1
        | _, _ => false

def S3Store.lost (w : Nat → List ω) (bucket : Bucket) : Call → Bool
  | .put path bytes => S.unheard (.putObject (s.key path) bytes) (w 0) bucket
  | .putIfAbsent path bytes =>
      S3Store.lostPut S w (.putIfNoneMatch (s.key path) bytes) 4 0 bucket
  | .delete path => S.unheard (.deleteObject (s.key path)) (w 0) bucket
  | .get _ | .getRange .. | .size _ | .list _ => false

/-- A bucket, the calls of which a request may still be under way, and what has
happened. -/
structure Usage where
  bucket : Bucket
  doubtful : List Call
  events : List Happening

inductive Act (ω : Type) where
  | call (c : Call) (w : Nat → List ω)
  | late (i : Nat) (w : ω)

def Usage.start (bucket : Bucket) : Usage := ⟨bucket, [], []⟩

/-- A call of the store, or the landing of a request that was given up. -/
def Usage.step (fuel : Nat) (u : Usage) : Act ω → Option Usage
  | .call c w =>
      let lost := s.lost S w u.bucket c
      some {
        bucket := (s.call S w fuel u.bucket c).1
        doubtful := if lost then c :: u.doubtful else u.doubtful
        events := u.events ++ [.call c (s.call S w fuel u.bucket c).2 lost] }
  | .late i w =>
      (u.doubtful[i]?).bind fun c => (s.request c).map fun r =>
        { u with bucket := (S.write w u.bucket r).1, events := u.events ++ [.late c] }

def properAct (P : Set String) : Act ω → Prop
  | .call c _ => c.Proper P
  | .late .. => True

end Machine

section Spelling

variable {key : AbsPath} {dir path : String}

theorem ends_of_clean (hclean : Clean key) :
    (∀ c ∈ (['/'].intercalate key).head?, c ≠ '/') ∧
      ∀ c ∈ (['/'].intercalate key).getLast?, c ≠ '/' := by
  have hends : ∀ segment, keepSegment segment = true ∧ '/' ∉ segment → segment ≠ [] ∧
      (∀ c ∈ segment.head?, c ≠ '/') ∧ ∀ c ∈ segment.getLast?, c ≠ '/' := by
    rintro segment ⟨hkeep, hslash⟩
    refine ⟨?_, ?_, ?_⟩
    · rintro rfl
      cases hkeep
    · rintro c hc rfl
      exact hslash (List.mem_of_head? hc)
    · rintro c hc rfl
      exact hslash (List.mem_of_getLast? hc)
  induction key with
  | nil => constructor <;> intro c hc <;> cases hc
  | cons segment rest ih =>
      obtain ⟨hne, hhead, hlast⟩ := hends segment (hclean segment (.head _))
      cases rest with
      | nil =>
          rw [List.intercalate_singleton]
          exact ⟨hhead, hlast⟩
      | cons next rest =>
          obtain ⟨_, htail⟩ := ih fun s hs => hclean s (.tail _ hs)
          have hnext : ['/'].intercalate (next :: rest) ≠ [] := by
            obtain ⟨hne', _⟩ := hends next (hclean next (.tail _ (.head _)))
            cases rest <;> simp [List.intercalate_cons_cons, hne']
          rw [List.intercalate_cons_cons, List.append_assoc]
          refine ⟨?_, ?_⟩
          · rw [List.head?_append_of_ne_nil _ hne]
            exact hhead
          · rw [List.getLast?_append_of_ne_nil _ (by simp), List.getLast?_append_of_ne_nil _ hnext]
            exact htail

/-- A path as it is listed has no slash at either end. -/
theorem trimSlashes_joined (hclean : Clean key) : trimSlashes (joined key) = joined key := by
  obtain ⟨hhead, hlast⟩ := ends_of_clean hclean
  have hdrop : (['/'].intercalate key).dropWhile (· = '/') = ['/'].intercalate key := by
    rw [List.dropWhile_eq_self_iff]
    intro hpos
    simpa using hhead _ (List.head?_eq_getElem? ▸ List.getElem?_eq_getElem hpos)
  have hrdrop : (['/'].intercalate key).rdropWhile (· = '/') = ['/'].intercalate key := by
    rw [List.rdropWhile_eq_self_iff]
    intro hne
    simpa using hlast _ (List.getLast?_eq_some_getLast hne)
  rw [trimSlashes, joined, String.toList_ofList, hdrop, hrdrop]

theorem joined_begins {sep : List Char} {a b : List (List Char)} (ha : a ≠ []) (hb : b ≠ []) :
    sep.intercalate a ++ sep <+: sep.intercalate (a ++ b) := by
  induction a with
  | nil => exact absurd rfl ha
  | cons x a ih =>
      cases a with
      | nil =>
          obtain ⟨y, rest, rfl⟩ := List.exists_cons_of_ne_nil hb
          rw [List.intercalate_singleton, List.singleton_append, List.intercalate_cons_cons]
          exact List.prefix_append _ _
      | cons y a =>
          rw [List.cons_append, List.cons_append, List.intercalate_cons_cons,
            List.intercalate_cons_cons, List.append_assoc, List.append_assoc, List.append_assoc]
          rw [List.prefix_append_right_inj, List.prefix_append_right_inj]
          exact ih (by simp)

/-- A listed path is in a directory if it begins with it and a slash. -/
theorem below_iff (hdir : joined (abs dir) = dir) (hpath : joined (abs path) = path)
    (hne : abs path ≠ []) :
    dir = "" ∨ (dir ++ "/").toList <+: path.toList ↔ Below dir path := by
  have hslash : "/".toList = ['/'] := by decide
  constructor
  · rintro (rfl | ⟨rest, hrest⟩)
    · exact ⟨List.nil_prefix, Ne.symm hne⟩
    · obtain rfl : dir ++ "/" ++ String.ofList rest = path := by
        rw [← String.toList_inj, String.toList_append, String.toList_ofList, hrest]
      rw [Below, abs_append]
      refine ⟨List.prefix_append _ _, ?_⟩
      intro heq
      rw [abs_append, ← heq, hdir] at hpath
      have hlength := congrArg (fun s : String => s.toList.length) hpath
      simp [hslash] at hlength
  · rintro ⟨⟨more, hmore⟩, hother⟩
    by_cases hroot : abs dir = []
    · left
      rw [← hdir, hroot]
      rfl
    · right
      have hrest : more ≠ [] := by
        rintro rfl
        exact hother (by simpa using hmore)
      rw [← hpath, ← hmore, ← hdir, String.toList_append, hslash, joined, joined,
        String.toList_ofList, String.toList_ofList]
      rw [show abs (String.ofList (['/'].intercalate (abs dir))) = abs dir from
        congrArg abs hdir]
      exact joined_begins hroot hrest

end Spelling

section Writes

variable {S : Service ω τ} {s : S3Store} {P : Set String} {a b : Bucket} {c : Call} {r : Write}
  {m m' before : Objects} {path : String}

theorem objects_same (helse : ∀ k, k ≠ s.keyPrefix ++ path → b.lookup k = a.lookup k)
    (hthere : b.lookup (s.keyPrefix ++ path) = a.lookup (s.keyPrefix ++ path)) :
    s.objects b = s.objects a := by
  funext q
  by_cases hq : s.keyPrefix ++ q = s.keyPrefix ++ path
  · rw [S3Store.objects, S3Store.objects, hq, hthere]
  · exact helse _ hq

theorem objects_set {x : Option Bytes}
    (helse : ∀ k, k ≠ s.keyPrefix ++ path → b.lookup k = a.lookup k)
    (hthere : b.lookup (s.keyPrefix ++ path) = x) :
    s.objects b = Function.update (s.objects a) path x := by
  funext q
  by_cases hq : q = path
  · rw [hq, Function.update_self]
    exact hthere
  · rw [Function.update_of_ne hq]
    refine helse _ fun heq => hq ?_
    rwa [← String.toList_inj, String.toList_append, String.toList_append,
      List.append_cancel_left_eq, String.toList_inj] at heq

/-- What the answer to a request says of the objects. -/
structure Told (m : Objects) (c : Call) (m' : Objects) (answer : Except S3Error Unit) :
    Prop where
  changes : m' = m ∨ m' = c.apply m
  done : answer = .ok () → m' = c.apply m
  created : answer = .ok () → ∀ path bytes, c = .putIfAbsent path bytes → m path = none
  refused : answer = .error .preconditionFailed → ∀ path bytes, c = .putIfAbsent path bytes →
    (m' path).isSome = true

theorem Told.nothing (m : Objects) (c : Call) : Told m c m (.error .unanswered) := by
  refine ⟨.inl rfl, ?_, ?_, ?_⟩
  all_goals
    intro hanswer
    cases hanswer

/-- Of a request that has been under way before. -/
theorem Told.again {answer : Except S3Error Unit} (hchanges : m = before ∨ m = c.apply before)
    (h : Told m c m' answer) : Told before c m' answer := by
  have hsame : c.apply m = c.apply before := by
    rcases hchanges with rfl | rfl
    · rfl
    · exact Call.apply_apply c before
  refine ⟨?_, fun hok => (h.done hok).trans hsame, ?_, h.refused⟩
  · rcases h.changes with rfl | hset
    · exact hchanges
    · exact .inr (hset.trans hsame)
  · intro hok path bytes hput
    have hnone := h.created hok path bytes hput
    rcases hchanges with rfl | rfl
    · exact hnone
    · subst hput
      cases hold : before path with
      | none => rfl
      | some old => simp [Call.apply, hold] at hnone

/-- A path as it is listed, and not the root. -/
def Canonical (path : String) : Prop := joined (abs path) = path ∧ abs path ≠ []

theorem key_eq (s : S3Store) (h : Canonical path) : s.key path = s.keyPrefix ++ path := by
  have htrim := trimSlashes_joined (clean_abs path)
  rw [h.1] at htrim
  rw [S3Store.key, htrim]

theorem write_told (hS : S.Separate) (hC : S.Conditional) (hT : S.Truthful)
    (hP : ∀ path ∈ P, Canonical path) (hr : s.request c = some r) (hc : c.Proper P) (w : ω)
    (b : Bucket) : Told (s.objects b) c (s.objects (S.write w b r).1) (S.write w b r).2 := by
  have helse := hS.elsewhere w b r
  cases c with
  | put path bytes =>
      obtain rfl := Option.some.inj hr
      rw [key_eq s (hP path hc)] at helse ⊢
      refine ⟨?_, ?_, by rintro - _ _ ⟨⟩, by rintro - _ _ ⟨⟩⟩
      · exact (hT.put w b (s.keyPrefix ++ path) bytes).imp (objects_same helse) (objects_set helse)
      · exact fun hok => objects_set helse (hT.stored w b _ bytes hok)
  | putIfAbsent path bytes =>
      obtain rfl := Option.some.inj hr
      rw [key_eq s (hP path hc)] at helse ⊢
      have happly : s.objects b path = none → Call.apply (s.objects b) (.putIfAbsent path bytes) =
          Function.update (s.objects b) path (some bytes) := by
        intro hnone
        rw [Call.apply, hnone]
        rfl
      refine ⟨?_, ?_, ?_, ?_⟩
      · rcases hC.effect w b (s.keyPrefix ++ path) bytes with hsame | ⟨hnone, hset, _⟩
        · exact .inl (objects_same helse hsame)
        · exact .inr ((objects_set helse hset).trans (happly hnone).symm)
      · intro hok
        obtain ⟨hnone, hset⟩ := hC.created w b _ bytes hok
        exact (objects_set helse hset).trans (happly hnone).symm
      · rintro hok _ _ ⟨⟩
        exact (hC.created w b _ bytes hok).1
      · rintro hrefused _ _ ⟨⟩
        have hthere := hC.refused w b _ bytes hrefused
        rcases hC.effect w b (s.keyPrefix ++ path) bytes with hsame | ⟨hnone, _⟩
        · rw [S3Store.objects, hsame]
          exact hthere
        · rw [hnone] at hthere
          cases hthere
  | delete path =>
      obtain rfl := Option.some.inj hr
      rw [key_eq s (hP path hc)] at helse ⊢
      refine ⟨?_, ?_, by rintro - _ _ ⟨⟩, by rintro - _ _ ⟨⟩⟩
      · exact (hT.delete w b (s.keyPrefix ++ path)).imp (objects_same helse) (objects_set helse)
      · exact fun hok => objects_set helse (hT.deleted w b _ hok)
  | get | getRange | size | list => cases hr

/-- However often the SDK repeats it. -/
theorem sendWrite_told
    (hone : ∀ w b, Told (s.objects b) c (s.objects (S.write w b r).1) (S.write w b r).2)
    (ws : List ω) (b : Bucket) :
    Told (s.objects b) c (s.objects (S.sendWrite r ws b).1) (S.sendWrite r ws b).2 := by
  induction ws generalizing b with
  | nil => exact .nothing _ _
  | cons w ws ih =>
      have hfirst := hone w b
      rw [Service.sendWrite]
      split
      · next bucket hanswer =>
          rw [hanswer] at hfirst
          exact (ih bucket).again hfirst.changes
      · exact hfirst

/-- And however often the store tries again. -/
theorem attemptPut_told {bytes : Bytes}
    (hone : ∀ w b, Told (s.objects b) c
      (s.objects (S.write w b (.putIfNoneMatch (s.key path) bytes)).1)
      (S.write w b (.putIfNoneMatch (s.key path) bytes)).2)
    (w : Nat → List ω) (more attempt : Nat) (b : Bucket) : ∃ answer,
    Told (s.objects b) c (s.objects (s.attemptPut S w path bytes more attempt b).1) answer ∧
      ((s.attemptPut S w path bytes more attempt b).2 = .ok true → answer = .ok ()) ∧
      ((s.attemptPut S w path bytes more attempt b).2 = .ok false →
        answer = .error .preconditionFailed) := by
  have hreturns : ∀ attempt answer result, verdict attempt answer = .returns result →
      (result = .ok true → answer = .ok ()) ∧
        (result = .ok false → answer = .error .preconditionFailed) := by
    intro attempt answer result hverdict
    rcases answer with (_ | _ | _ | _ | _ | _) | _
    case error.conditionalConflict =>
      rw [verdict] at hverdict
      split at hverdict
      · cases hverdict
      · obtain rfl := Verdict.returns.inj hverdict
        simp
    all_goals
      obtain rfl := Verdict.returns.inj hverdict
      simp
  induction more generalizing attempt b with
  | zero =>
      have hsent := sendWrite_told hone (w attempt) b
      simp only [S3Store.attemptPut]
      split
      · next result hverdict => exact ⟨_, hsent, hreturns _ _ _ hverdict⟩
      · exact ⟨_, hsent, by rintro ⟨⟩, by rintro ⟨⟩⟩
  | succ more ih =>
      have hsent := sendWrite_told hone (w attempt) b
      simp only [S3Store.attemptPut]
      split
      · next result hverdict => exact ⟨_, hsent, hreturns _ _ _ hverdict⟩
      · obtain ⟨answer, htold, hanswer⟩ :=
          ih (attempt + 1) (S.sendWrite (.putIfNoneMatch (s.key path) bytes) (w attempt) b).1
        exact ⟨answer, htold.again hsent.changes, hanswer⟩

end Writes

section Reads

variable {S : Service ω τ} {s : S3Store} {P : Set String} {b : Bucket} {path : String}
  {w : Nat → List ω} {m' : Objects}

theorem get_tells (hT : S.Truthful) (hpath : Canonical path) :
    Tells P (s.objects b) m' (.get path) ((s.get S w b path).map .bytes) := by
  rw [S3Store.get, key_eq s hpath]
  split
  · next bytes hsent =>
      obtain ⟨w', _, hw'⟩ := sendRead_ok hsent
      exact hT.get w' b _ _ hw'
  · next hsent =>
      obtain hnone | ⟨w', _, hw'⟩ := sendRead_error hsent
      · cases hnone
      · rintro - q ⟨⟩
        exact hT.missing w' b _ hw'
  · rintro ⟨⟩

theorem getRange_tells (hT : S.Truthful) (hpath : Canonical path) {offset len : Nat}
    (hend : offset + len ≤ 2 ^ 64) :
    Tells P (s.objects b) m' (.getRange path offset len)
      ((s.getRange S w b path offset len).map .bytes) := by
  unfold S3Store.getRange
  by_cases hlen : len = 0
  · rw [if_pos hlen]
    exact .inl ⟨hlen, rfl⟩
  · have hstop : (offset + len - 1) % 2 ^ 64 = offset + len - 1 := Nat.mod_eq_of_lt (by omega)
    simp only [if_neg hlen, hstop, key_eq s hpath]
    split
    · next bytes hsent =>
        obtain ⟨w', _, hw'⟩ := sendRead_ok hsent
        obtain ⟨object, hobject, hbytes⟩ := hT.range w' b _ _ _ _ (by omega) hw'
        have hcount : offset + len - 1 + 1 - offset = len := by omega
        rw [hcount] at hbytes
        exact .inr ⟨object, hobject, hbytes⟩
    · next hsent =>
        obtain hnone | ⟨w', _, hw'⟩ := sendRead_error hsent
        · cases hnone
        · obtain ⟨object, hobject, hshort⟩ := hT.beyond w' b _ _ _ (by omega) hw'
          refine .inr ⟨object, hobject, ?_⟩
          rw [List.drop_eq_nil_of_le hshort, List.take_nil]
    · rintro ⟨⟩

theorem size_tells (hT : S.Truthful) (hpath : Canonical path) :
    Tells P (s.objects b) m' (.size path) ((s.size S w b path).map .size) := by
  rw [S3Store.size, key_eq s hpath]
  split
  · next n hsent =>
      obtain ⟨w', _, hw'⟩ := sendRead_ok hsent
      exact hT.head w' b _ _ hw'
  · rintro ⟨⟩

theorem list_tells {place : τ → String} (hL : S.Listing place) (hP : ∀ path ∈ P, Canonical path)
    {dir : String} (hdir : joined (abs dir) = dir) {fuel : Nat} {r : Reply}
    (hr : r ∈ (s.list S w (fun _ => b) fuel dir).map (Except.map Answer.paths)) :
    Tells P (s.objects b) m' (.list dir) r := by
  obtain ⟨result, hlist, rfl⟩ := Option.map_eq_some_iff.mp hr
  cases result with
  | error e =>
      rintro _ path ⟨⟩
  | ok listed =>
      obtain ⟨keys, hpages, hlisted, hmem⟩ := list_eq_ok hlist
      have hfetch := fetchPage_pages hL s w (fun _ => b) dir
      have hkeys : ∀ k, k ∈ keys ↔ k ∈ keysUnder b (s.keyFront dir) := by
        intro k
        constructor
        · intro hk
          obtain ⟨_, _, hin⟩ := listPages_sound hfetch hpages hk
          exact hin
        · exact fun hk => listPages_complete hfetch hpages (fun _ _ => hk) (by rintro _ ⟨⟩)
      refine ⟨hlisted ▸ List.pairwise_insertionSort _ _, fun path hpath => ?_⟩
      rw [hmem, hkeys, mem_keysUnder, ← AList.lookup_isSome]
      refine and_congr_right fun _ => ?_
      rw [← below_iff hdir (hP path hpath).1 (hP path hpath).2, S3Store.keyFront]
      have htrim := trimSlashes_joined (clean_abs dir)
      rw [hdir] at htrim
      rw [htrim]
      by_cases hroot : dir = ""
      · simp [hroot]
      · rw [if_neg hroot, or_iff_right hroot]
        simp only [String.toList_append, List.append_assoc, List.prefix_append_right_inj]

end Reads

section Runs

variable {S : Service ω τ} {place : τ → String} {s : S3Store} {P : Set String} {c : Call}
  {fuel : Nat} {u v : Usage} {act : Act ω}

theorem changes_of {m m' : Objects} (h : m' = m ∨ m' = c.apply m) : Changes P m c m' := by
  rcases h with rfl | rfl
  · exact .inl fun _ _ => rfl
  · exact .inr fun _ _ => rfl

/-- One call of the store. -/
theorem call_tells (hS : S.Separate) (hL : S.Listing place) (hC : S.Conditional)
    (hT : S.Truthful) (hP : ∀ path ∈ P, Canonical path) (hc : c.Proper P) (fuel : Nat)
    (w : Nat → List ω) (b : Bucket) :
    Changes P (s.objects b) c (s.objects (s.call S w fuel b c).1) ∧
      ∀ r ∈ (s.call S w fuel b c).2,
        Tells P (s.objects b) (s.objects (s.call S w fuel b c).1) c r := by
  have hone : ∀ r, s.request c = some r → ∀ w b,
      Told (s.objects b) c (s.objects (S.write w b r).1) (S.write w b r).2 :=
    fun r hr => write_told hS hC hT hP hr hc
  have hsame : Changes P (s.objects b) c (s.objects b) := .inl fun _ _ => rfl
  cases c with
  | put path bytes =>
      have hsent := sendWrite_told (hone _ rfl) (w 0) b
      cases hanswer : S.sendWrite (.putObject (s.key path) bytes) (w 0) b with
      | mk bucket answer =>
          rw [hanswer] at hsent
          simp only [S3Store.call, S3Store.put, hanswer]
          cases answer with
          | ok _ =>
              refine ⟨changes_of hsent.changes, ?_⟩
              rintro r ⟨⟩ q _
              exact congrFun (hsent.done rfl) q
          | error e =>
              refine ⟨changes_of hsent.changes, ?_⟩
              rintro r ⟨⟩
              rintro ⟨⟩
  | delete path =>
      have hsent := sendWrite_told (hone _ rfl) (w 0) b
      cases hanswer : S.sendWrite (.deleteObject (s.key path)) (w 0) b with
      | mk bucket answer =>
          rw [hanswer] at hsent
          simp only [S3Store.call, S3Store.delete, hanswer]
          cases answer with
          | ok _ =>
              refine ⟨changes_of hsent.changes, ?_⟩
              rintro r ⟨⟩ q _
              exact congrFun (hsent.done rfl) q
          | error e =>
              refine ⟨changes_of hsent.changes, ?_⟩
              rintro r ⟨⟩
              rintro ⟨⟩
  | putIfAbsent path bytes =>
      obtain ⟨answer, htold, htrue, hfalse⟩ := attemptPut_told (hone _ rfl) w 4 0 b
      cases hresult : s.attemptPut S w path bytes 4 0 b with
      | mk bucket result =>
          rw [hresult] at htold htrue hfalse
          simp only [S3Store.call, S3Store.putIfAbsent, hresult]
          refine ⟨changes_of htold.changes, ?_⟩
          rintro r ⟨⟩
          rcases result with e | _ | _
          · rintro _ q ⟨⟩
          · exact htold.refused (hfalse rfl) path bytes rfl
          · exact ⟨htold.created (htrue rfl) path bytes rfl,
              fun q _ => congrFun (htold.done (htrue rfl)) q⟩
  | get path =>
      refine ⟨hsame, ?_⟩
      rintro r ⟨⟩
      exact get_tells hT (hP path hc)
  | getRange path offset len =>
      refine ⟨hsame, ?_⟩
      rintro r ⟨⟩
      exact getRange_tells hT (hP path hc.1) hc.2
  | size path =>
      refine ⟨hsame, ?_⟩
      rintro r ⟨⟩
      exact size_tells hT (hP path hc)
  | list dir => exact ⟨hsame, fun r hr => list_tells hL hP hc hr⟩

/-- The history so far, and the writes that may still land are proper. -/
structure Usage.Inv (s : S3Store) (P : Set String) (bucket : Bucket) (u : Usage) : Prop where
  history : History P (s.objects bucket) [] u.events (s.objects u.bucket) u.doubtful
  proper : ∀ c ∈ u.doubtful, c.Proper P

theorem Usage.Inv.step {bucket : Bucket} (hS : S.Separate) (hL : S.Listing place)
    (hC : S.Conditional) (hT : S.Truthful) (hP : ∀ path ∈ P, Canonical path)
    (h : u.Inv s P bucket) (hok : properAct P act) (hstep : u.step S s fuel act = some v) :
    v.Inv s P bucket := by
  cases act with
  | call c w =>
      obtain rfl := Option.some.inj hstep
      obtain ⟨hchanges, htells⟩ := call_tells hS hL hC hT hP hok fuel w u.bucket
      refine ⟨h.history.append (.call hchanges htells (.nil _ _)), fun d hd => ?_⟩
      dsimp only at hd
      split at hd
      · rcases List.mem_cons.mp hd with rfl | hd
        · exact hok
        · exact h.proper d hd
      · exact h.proper d hd
  | late i w =>
      obtain ⟨c, hc, hlate⟩ := Option.bind_eq_some_iff.mp hstep
      obtain ⟨r, hr, rfl⟩ := Option.map_eq_some_iff.mp hlate
      have hin := List.mem_of_getElem? hc
      have htold := write_told hS hC hT hP hr (h.proper c hin) w u.bucket
      exact ⟨h.history.append (.late hin (changes_of htold.changes) (.nil _ _)), h.proper⟩

/-- Where a service tells the truth, each run of the S3 store is a history of its objects
under its prefix. -/
theorem s3_keeps_promise (hS : S.Separate) (hL : S.Listing place) (hC : S.Conditional)
    (hT : S.Truthful) (hP : ∀ path ∈ P, Canonical path) {bucket : Bucket} {acts : List (Act ω)}
    (run : Run (Usage.step S s fuel) (fun _ => properAct P) (.start bucket) acts u) :
    History P (s.objects bucket) [] u.events (s.objects u.bucket) u.doubtful :=
  (run.invariant (P := Usage.Inv s P bucket)
    (fun _ _ _ h hok hstep => h.step hS hL hC hT hP hok hstep)
    ⟨.nil _ _, fun c hc => by cases hc⟩).history

end Runs

/-- A put whose first request is done without an answer, and lands again. -/
def lakeActs : List (Act Weather) :=
  [.call (.put "a" [1]) rough, .late 0 .fair, .call (.get "a") rough, .call (.list "") rough]

end TimeLake.S3
