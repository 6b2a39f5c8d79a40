import TimeLake.S3.Plain
import TimeLake.Library.Fallible

/-!
Many users of one bucket, over any service. Stores whose prefixes do not begin one
another do not see each other; and a listing that others write under gives once what
is there all the time and nothing that never was.
-/

namespace TimeLake.S3

open TimeLake.Library TimeLake.Encrypt

variable {ω τ : Type} {S : Service ω τ}

section Isolation

/-- The same objects under a prefix. -/
def SameUnder (front : String) (a b : Bucket) : Prop :=
  ∀ k, front.toList <+: k.toList → a.lookup k = b.lookup k

variable {s : S3Store} {a b : Bucket} {front : String}

theorem front_key (s : S3Store) (path : String) :
    s.keyPrefix.toList <+: (s.key path).toList := by
  rw [S3Store.key, String.toList_append]
  exact List.prefix_append _ _

theorem front_keyFront (s : S3Store) (dir : String) :
    s.keyPrefix.toList <+: (s.keyFront dir).toList := by
  rw [S3Store.keyFront]
  split
  · exact List.prefix_rfl
  · rw [String.toList_append, String.toList_append, List.append_assoc]
    exact List.prefix_append _ _

/-- A write below the prefix, however often the SDK repeats it. -/
theorem SameUnder.sendWrite (h : SameUnder front a b) (hS : S.Separate) {r : Write}
    (hkey : front.toList <+: r.key.toList) (ws : List ω) :
    SameUnder front (S.sendWrite r ws a).1 (S.sendWrite r ws b).1 ∧
      (S.sendWrite r ws a).2 = (S.sendWrite r ws b).2 := by
  induction ws generalizing a b with
  | nil => exact ⟨h, rfl⟩
  | cons w ws ih =>
      obtain ⟨hreply, hobject⟩ := hS.write w a b r (h _ hkey)
      have hnext : SameUnder front (S.write w a r).1 (S.write w b r).1 := by
        intro k hk
        by_cases heq : k = r.key
        · rw [heq]
          exact hobject
        · rw [hS.elsewhere w a r k heq, hS.elsewhere w b r k heq, h k hk]
      rw [Service.sendWrite, Service.sendWrite]
      cases ha : S.write w a r with
      | mk a' answer =>
          cases hb : S.write w b r with
          | mk b' answer' =>
              rw [ha, hb] at hnext hreply
              obtain rfl : answer = answer' := hreply
              rcases answer with (_ | _ | _ | _ | _ | _) | _
              case error.unanswered => exact ih hnext
              all_goals exact ⟨hnext, rfl⟩

/-- A write elsewhere changes nothing below the prefix. -/
theorem sameUnder_sendWrite (hS : S.Separate) {r : Write} (hkey : ¬ front.toList <+: r.key.toList)
    (ws : List ω) (a : Bucket) : SameUnder front (S.sendWrite r ws a).1 a := by
  have hone : ∀ w a, SameUnder front (S.write w a r).1 a := by
    intro w a k hk
    refine hS.elsewhere w a r k ?_
    rintro rfl
    exact hkey hk
  induction ws generalizing a with
  | nil => exact fun _ _ => rfl
  | cons w ws ih =>
      have hfirst := hone w a
      rw [Service.sendWrite]
      cases ha : S.write w a r with
      | mk a' answer =>
          rw [ha] at hfirst
          rcases answer with (_ | _ | _ | _ | _ | _) | _
          case error.unanswered => exact fun k hk => (ih a' k hk).trans (hfirst k hk)
          all_goals exact hfirst

theorem SameUnder.attemptPut (h : SameUnder s.keyPrefix a b) (hS : S.Separate)
    (w : Nat → List ω) (path : String) (bytes : Bytes) (more attempt : Nat) :
    SameUnder s.keyPrefix (s.attemptPut S w path bytes more attempt a).1
        (s.attemptPut S w path bytes more attempt b).1 ∧
      (s.attemptPut S w path bytes more attempt a).2 =
        (s.attemptPut S w path bytes more attempt b).2 := by
  induction more generalizing attempt a b with
  | zero =>
      obtain ⟨hnext, hreply⟩ := h.sendWrite hS (r := .putIfNoneMatch (s.key path) bytes)
        (front_key s path) (w attempt)
      simp only [S3Store.attemptPut, hreply]
      split <;> exact ⟨hnext, rfl⟩
  | succ more ih =>
      obtain ⟨hnext, hreply⟩ := h.sendWrite hS (r := .putIfNoneMatch (s.key path) bytes)
        (front_key s path) (w attempt)
      simp only [S3Store.attemptPut, hreply]
      split
      · exact ⟨hnext, rfl⟩
      · exact ih hnext (attempt + 1)

theorem sameUnder_attemptPut (hS : S.Separate) {path : String}
    (hkey : ¬ front.toList <+: (s.key path).toList) (w : Nat → List ω) (bytes : Bytes)
    (more attempt : Nat) (a : Bucket) :
    SameUnder front (s.attemptPut S w path bytes more attempt a).1 a := by
  induction more generalizing attempt a with
  | zero =>
      have hfirst := sameUnder_sendWrite hS (r := .putIfNoneMatch (s.key path) bytes) hkey
        (w attempt) a
      simp only [S3Store.attemptPut]
      split <;> exact hfirst
  | succ more ih =>
      have hfirst := sameUnder_sendWrite hS (r := .putIfNoneMatch (s.key path) bytes) hkey
        (w attempt) a
      simp only [S3Store.attemptPut]
      split
      · exact hfirst
      · exact fun k hk => (ih (attempt + 1) _ k hk).trans (hfirst k hk)

theorem done_fst (answer : Bucket × Except S3Error Unit) : (S3Store.done answer).1 = answer.1 := by
  obtain ⟨bucket, _ | _⟩ := answer <;> rfl

theorem done_snd {x y : Bucket × Except S3Error Unit} (h : x.2 = y.2) :
    (S3Store.done x).2 = (S3Store.done y).2 := by
  obtain ⟨a, ra⟩ := x
  obtain ⟨b, rb⟩ := y
  obtain rfl : ra = rb := h
  cases ra <;> rfl

/-- A call reads and writes under the store's prefix only. -/
theorem SameUnder.call (h : SameUnder s.keyPrefix a b) (hS : S.Separate) (fuel : Nat)
    (w : Nat → List ω) (c : Call) :
    SameUnder s.keyPrefix (s.call S w fuel a c).1 (s.call S w fuel b c).1 ∧
      (s.call S w fuel a c).2 = (s.call S w fuel b c).2 := by
  have hkey : ∀ path, a.lookup (s.key path) = b.lookup (s.key path) :=
    fun path => h _ (front_key s path)
  have hwrite : ∀ r : Write, s.keyPrefix.toList <+: r.key.toList →
      SameUnder s.keyPrefix (S3Store.done (S.sendWrite r (w 0) a)).1
          (S3Store.done (S.sendWrite r (w 0) b)).1 ∧
        (S3Store.done (S.sendWrite r (w 0) a)).2 = (S3Store.done (S.sendWrite r (w 0) b)).2 := by
    intro r hr
    obtain ⟨hnext, hreply⟩ := h.sendWrite hS hr (w 0)
    rw [done_fst, done_fst]
    exact ⟨hnext, done_snd hreply⟩
  cases c with
  | put path bytes =>
      obtain ⟨hnext, hreply⟩ := hwrite (.putObject (s.key path) bytes) (front_key s path)
      refine ⟨hnext, ?_⟩
      simp only [S3Store.call, S3Store.put, Prod.map, hreply]
  | putIfAbsent path bytes =>
      obtain ⟨hnext, hreply⟩ := h.attemptPut hS w path bytes 4 0
      refine ⟨hnext, ?_⟩
      simp only [S3Store.call, S3Store.putIfAbsent, Prod.map, hreply]
  | get path =>
      refine ⟨h, ?_⟩
      simp only [S3Store.call, S3Store.get, hS.get _ a b _ _ (hkey path)]
  | getRange path offset len =>
      refine ⟨h, ?_⟩
      simp only [S3Store.call, S3Store.getRange, hS.get _ a b _ _ (hkey path)]
  | size path =>
      refine ⟨h, ?_⟩
      simp only [S3Store.call, S3Store.size, hS.head _ a b _ (hkey path)]
  | delete path =>
      obtain ⟨hnext, hreply⟩ := hwrite (.deleteObject (s.key path)) (front_key s path)
      refine ⟨hnext, ?_⟩
      simp only [S3Store.call, S3Store.delete, Prod.map, hreply]
  | list dir =>
      refine ⟨h, ?_⟩
      have hfetch : s.fetchPage S w (fun _ => a) dir = s.fetchPage S w (fun _ => b) dir := by
        funext i token
        have hunder : ∀ k, (s.keyFront dir).toList <+: k.toList → a.lookup k = b.lookup k :=
          fun k hk => h k ((front_keyFront s dir).trans hk)
        simp only [S3Store.fetchPage, hS.list _ a b _ token hunder]
      simp only [S3Store.call, S3Store.list, hfetch]

/-- Neither prefix begins the other. -/
def Apart (s t : S3Store) : Prop :=
  ¬ s.keyPrefix.toList <+: t.keyPrefix.toList ∧ ¬ t.keyPrefix.toList <+: s.keyPrefix.toList

/-- A call of another store changes nothing under the prefix. -/
theorem sameUnder_other {t : S3Store} (hapart : Apart s t) (hS : S.Separate) (fuel : Nat)
    (w : Nat → List ω) (c : Call) : SameUnder s.keyPrefix (t.call S w fuel a c).1 a := by
  have hother : ∀ path, ¬ s.keyPrefix.toList <+: (t.key path).toList := by
    intro path hk
    rcases List.prefix_or_prefix_of_prefix hk (front_key t path) with hp | hp
    · exact hapart.1 hp
    · exact hapart.2 hp
  have hwrite : ∀ r : Write, ¬ s.keyPrefix.toList <+: r.key.toList →
      SameUnder s.keyPrefix (S3Store.done (S.sendWrite r (w 0) a)).1 a := by
    intro r hr
    rw [done_fst]
    exact sameUnder_sendWrite hS hr (w 0) a
  cases c with
  | put path bytes => exact hwrite (.putObject (t.key path) bytes) (hother path)
  | putIfAbsent path bytes => exact sameUnder_attemptPut hS (hother path) w bytes 4 0 a
  | delete path => exact hwrite (.deleteObject (t.key path)) (hother path)
  | get path | getRange path offset len | size path | list dir => exact fun _ _ => rfl

variable {ι : Type} [DecidableEq ι]

/-- What the stores are answered, each call by the one who makes it. -/
def answersBy (S : Service ω τ) (stores : ι → S3Store) (fuel : Nat) (bucket : Bucket) :
    List (ι × Weathered ω) → List (ι × Option Reply)
  | [] => []
  | (i, c, w) :: rest =>
      (i, ((stores i).call S w fuel bucket c).2) ::
        answersBy S stores fuel ((stores i).call S w fuel bucket c).1 rest

/-- What one of them is answered. -/
def repliesTo (i : ι) (log : List (ι × Option Reply)) : List (Option Reply) :=
  (log.filter fun entry => entry.1 = i).map Prod.snd

def callsOf (i : ι) (calls : List (ι × Weathered ω)) : List (Weathered ω) :=
  (calls.filter fun entry => entry.1 = i).map Prod.snd

/-- Stores with prefixes apart, over one bucket of a service whose requests see and
change the objects they are about only, are answered as if each were alone. -/
theorem prefixes_isolated (S : Service ω τ) (hS : S.Separate) (stores : ι → S3Store)
    (hapart : ∀ i j, i ≠ j → Apart (stores i) (stores j)) (fuel : Nat) (bucket : Bucket)
    (calls : List (ι × Weathered ω)) (i : ι) :
    repliesTo i (answersBy S stores fuel bucket calls) =
      answers S (stores i) fuel bucket (callsOf i calls) := by
  have hrun : ∀ (calls : List (ι × Weathered ω)) (a b : Bucket),
      SameUnder (stores i).keyPrefix a b →
      repliesTo i (answersBy S stores fuel a calls) =
        answers S (stores i) fuel b (callsOf i calls) := by
    intro calls
    induction calls with
    | nil => exact fun _ _ _ => rfl
    | cons entry rest ih =>
        obtain ⟨j, c, w⟩ := entry
        intro a b hsame
        by_cases hj : j = i
        · subst hj
          obtain ⟨hnext, hreply⟩ := hsame.call hS fuel w c
          have htail := ih _ _ hnext
          simp only [repliesTo, callsOf, answersBy, List.filter_cons, decide_true, if_true,
            List.map_cons, answers] at htail ⊢
          rw [hreply, htail]
        · have hnext : SameUnder (stores i).keyPrefix ((stores j).call S w fuel a c).1 b := by
            intro k hk
            rw [sameUnder_other (hapart i j (Ne.symm hj)) hS fuel w c k hk, hsame k hk]
          have htail := ih _ _ hnext
          simp only [repliesTo, callsOf, answersBy, List.filter_cons, hj, decide_false] at htail ⊢
          exact htail
  exact hrun calls bucket bucket fun _ _ => rfl

/-- One prefix as a name begins the other, but the slash tells them apart. -/
def twoLakes (second : Bool) : S3Store :=
  if second then ⟨"lake2/", .inr ⟨"lake2", by decide +kernel⟩⟩
  else ⟨"lake/", .inr ⟨"lake", by decide +kernel⟩⟩

/-- The answer to the first attempt of each request is lost. -/
def rough : Nat → List Weather := fun _ => [.unheard, .fair]

def lakeCalls : List (Bool × Weathered Weather) :=
  [(false, .put "a" [1], rough), (true, .putIfAbsent "a" [2], rough), (false, .list "", rough),
    (true, .delete "a", rough), (false, .get "a", rough)]

theorem lakes_isolated :
    repliesTo false (answersBy (plainService 1) twoLakes 3 ∅ lakeCalls) =
      answers (plainService 1) (twoLakes false) 3 ∅ (callsOf false lakeCalls) := by
  refine prefixes_isolated (plainService 1) (plainService_separate 1) twoLakes ?_ 3 ∅ lakeCalls
    false
  intro i j hne
  cases i <;> cases j
  · exact absurd rfl hne
  · exact ⟨by decide +kernel, by decide +kernel⟩
  · exact ⟨by decide +kernel, by decide +kernel⟩
  · exact absurd rfl hne

end Isolation

section Listing

variable {place : τ → String}

theorem sendRead_ok {α : Type} {request : ω → Except S3Error α} {ws : List ω} {answer : α}
    (h : sendRead request ws = .ok answer) : ∃ w ∈ ws, request w = .ok answer := by
  induction ws with
  | nil => cases h
  | cons w ws ih =>
      rw [sendRead] at h
      split at h
      · obtain ⟨w', hin, hw'⟩ := ih h
        exact ⟨w', .tail _ hin, hw'⟩
      · exact ⟨w, .head _, h⟩

theorem sendRead_error {α : Type} {request : ω → Except S3Error α} {ws : List ω} {e : S3Error}
    (h : sendRead request ws = .error e) : e = .unanswered ∨ ∃ w ∈ ws, request w = .error e := by
  induction ws with
  | nil => exact .inl (Except.error.inj h).symm
  | cons w ws ih =>
      rw [sendRead] at h
      split at h
      · obtain hnone | ⟨w', hin, hw'⟩ := ih h
        · exact .inl hnone
        · exact .inr ⟨w', .tail _ hin, hw'⟩
      · exact .inr ⟨w, .head _, h⟩

/-- A listing has the paths of the keys it has found, sorted. -/
theorem list_eq_ok {s : S3Store} {w : Nat → List ω} {bucketAt : Nat → Bucket} {fuel : Nat}
    {dir : String} {listed : List String} (h : s.list S w bucketAt fuel dir = some (.ok listed)) :
    ∃ keys, listPages (s.fetchPage S w bucketAt dir) fuel 0 none = some (.ok keys) ∧
      listed = (keys.filterMap s.relative).insertionSort (· ≤ ·) ∧
      ∀ path, path ∈ listed ↔ s.keyPrefix ++ path ∈ keys := by
  obtain ⟨result, hpages, hresult⟩ := Option.map_eq_some_iff.mp h
  obtain ⟨keys, rfl, rfl⟩ := map_eq_ok.mp hresult
  refine ⟨keys, hpages, rfl, fun path => ?_⟩
  rw [List.mem_insertionSort, List.mem_filterMap]
  constructor
  · rintro ⟨k, hk, hpath⟩
    rw [← relative_eq_some.mp hpath]
    exact hk
  · intro hk
    exact ⟨_, hk, relative_key path⟩

theorem fetchPage_pages (hS : S.Listing place) (s : S3Store) (w : Nat → List ω)
    (bucketAt : Nat → Bucket) (dir : String) :
    Pages place (fun i => keysUnder (bucketAt i) (s.keyFront dir))
      (s.fetchPage S w bucketAt dir) := by
  intro i token page next h
  unfold S3Store.fetchPage at h
  cases hsent : sendRead (fun w => S.listObjects w (bucketAt i) (s.keyFront dir) token) (w i) with
  | error e =>
      rw [hsent] at h
      cases h
  | ok answer =>
      rw [hsent] at h
      obtain rfl := Except.ok.inj h
      obtain ⟨w', _, hw'⟩ := sendRead_ok hsent
      exact hS.page w' _ _ _ _ _ hw'

/-- A listing that ends, whatever its pages are and whatever bucket each of them
finds, is in order and names nothing twice; it names every path that is there at
every page, and none that is there at no page. -/
theorem listing_under_writers (S : Service ω τ) (place : τ → String) (hS : S.Listing place)
    (s : S3Store) (w : Nat → List ω) (bucketAt : Nat → Bucket) (fuel : Nat) (dir : String)
    (listed : List String) (h : s.list S w bucketAt fuel dir = some (.ok listed)) :
    listed.Pairwise (· < ·) ∧
    (∀ path, (∀ i, s.keyPrefix ++ path ∈ keysUnder (bucketAt i) (s.keyFront dir)) →
      path ∈ listed) ∧
    ∀ path ∈ listed, ∃ i, s.keyPrefix ++ path ∈ keysUnder (bucketAt i) (s.keyFront dir) := by
  have hpages := fetchPage_pages hS s w bucketAt dir
  obtain ⟨keys, hlisted, rfl, hmem⟩ := list_eq_ok h
  refine ⟨?_, ?_, ?_⟩
  · have hdistinct : (keys.filterMap s.relative).Nodup := by
      refine List.Nodup.filterMap ?_ ((listPages_pairwise hpages hlisted).1.imp ne_of_lt)
      intro a b rest ha hb
      rw [relative_eq_some.mp ha, relative_eq_some.mp hb]
    have hle := List.pairwise_insertionSort (· ≤ ·) (keys.filterMap s.relative)
    have hne : ((keys.filterMap s.relative).insertionSort (· ≤ ·)).Nodup :=
      (List.perm_insertionSort _ _).nodup_iff.mpr hdistinct
    exact (hle.and hne).imp fun h => lt_of_le_of_ne h.1 h.2
  · intro path hpath
    exact (hmem path).mpr (listPages_complete hpages hlisted (fun i _ => hpath i) nofun)
  · intro path hpath
    obtain ⟨i, _, hin⟩ := listPages_sound hpages hlisted ((hmem path).mp hpath)
    exact ⟨i, hin⟩

/-- A manifest to which an entry is added while it is listed. -/
def growingManifest (page : Nat) : Bucket :=
  let before := ((∅ : Bucket).insert "lake/catalog/2" []).insert "lake/catalog/1" []
  if page = 0 then before else before.insert "lake/catalog/3" []

theorem growingManifest_listed :
    (twoLakes false).list (plainService 1) rough growingManifest 5 "catalog" =
        some (.ok ["catalog/1", "catalog/2", "catalog/3"]) ∧
      ∀ listed, (twoLakes false).list (plainService 1) rough growingManifest 5 "catalog" =
        some (.ok listed) → "catalog/2" ∈ listed := by
  refine ⟨by decide +kernel, fun listed hlisted => ?_⟩
  refine (listing_under_writers (plainService 1) id (plainService_listing (by decide))
    (twoLakes false) rough growingManifest 5 "catalog" listed hlisted).2.1 "catalog/2" ?_
  intro i
  by_cases hi : i = 0
  · subst hi
    decide +kernel
  · rw [growingManifest, if_neg hi]
    decide +kernel

end Listing

end TimeLake.S3
