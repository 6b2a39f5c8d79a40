import TimeLake.Grace.Queue

/-!
Which runs keep the garbage collector off the files of running queries. A path in a
query's list was in the catalog when it was listed, so it comes into the deletion queue
after that. A pass takes what came a grace period ago: it takes no path of a query if
no query of that time has listed its files that long ago. That the grace exceeds the
timeout does not give this. A query waits for its permit with its files already listed,
and the timeout counts from the permit on.
-/

namespace TimeLake.Grace

open TimeLake.Library TimeLake.Catalog TimeLake.Rows TimeLake.Store

/-- The path a step deletes. -/
def deletes (s : State) : Action → Option String
  | .site a => Cluster.deletes s.site a
  | _ => none

/-- A pass begins only while all queries have listed their files less than a grace
period ago, and the node writes to unused paths. -/
def Careful (s : State) : Action → Prop
  | .site a => Cluster.fresh s.site a
  | .runGc _ => ∀ q ∈ s.queries.values, ∀ l ∈ q.listed, s.now < l.1 + s.grace
  | _ => True

/-- A listed path: its object is there, it came into the queue after it was listed, if
at all, and no pass is about to delete it. -/
structure Held (s : State) (l : Nat × String) : Prop where
  since : l.1 ≤ s.now
  object : s.site.objects (abs l.2) ≠ none
  queued : ∀ d ∈ s.deferred, abs d.2 = abs l.2 → l.1 ≤ d.1
  due : ∀ k due, s.site.task () k = some (.gc due) → ∀ p ∈ due, abs p ≠ abs l.2

structure Inv (s : State) : Prop where
  site : Cluster.Inv s.site
  head : (s.site.node ()).head = s.site.log.length
  queue : (s.site.node ()).pendingGc = s.deferred.map Prod.snd
  held : ∀ id q, s.queries.lookup id = some q → ∀ l ∈ q.listed, Held s l

section Held

variable {s t : State} {l : Nat × String}

theorem Held.of_site (h : Held s l) (hnow : s.now ≤ t.now) (hsite : t.site = s.site)
    (hdeferred : t.deferred = s.deferred) : Held t l := by
  refine ⟨h.since.trans hnow, ?_, ?_, ?_⟩
  · rw [hsite]
    exact h.object
  · rw [hdeferred]
    exact h.queued
  · rw [hsite]
    exact h.due

theorem Held.not_deleted (h : Held s l) {a : Action} {p : String} (hp : deletes s a = some p) :
    abs p ≠ abs l.2 := by
  cases a with
  | site a =>
      cases a with
      | gcDelete i k =>
          simp only [deletes, Cluster.deletes] at hp
          split at hp
          · next q due hT =>
              obtain rfl := Option.some.inj hp
              exact h.due k _ hT _ List.mem_cons_self
          · cases hp
      | _ => cases hp
  | _ => cases hp

/-- What a node lists now, it holds now. -/
theorem Inv.held_listed (h : Inv s) {key : TableKey} {p : String}
    (hp : p ∈ filesFor s.site key) : Held s (s.now, p) := by
  unfold filesFor at hp
  rw [h.head, List.take_length] at hp
  obtain ⟨f, hf, rfl⟩ := List.mem_map.mp hp
  have hlisted : f ∈ listed s.site.log := (FileIndex.mem_filesFor.mp hf).1
  have hapart : ∀ p, Cluster.Deferred s.site p → abs p ≠ abs f.path :=
    fun p hp heq => h.site.owned.deferred_listed p hp f hlisted heq.symm
  refine ⟨le_refl _, ?_, ?_, ?_⟩
  · intro hnone
    have hstored := h.site.stored f (.inl hlisted)
    rw [Cluster.objectOf, hnone] at hstored
    cases hstored
  · intro d hd heq
    have hqueued : d.2 ∈ (s.site.node ()).pendingGc := by
      rw [h.queue]
      exact List.mem_map_of_mem hd
    exact absurd heq (hapart d.2 ⟨(), .inl hqueued⟩)
  · intro k due hT p hp
    exact hapart p ⟨(), .inr ⟨k, _, hT, hp⟩⟩

end Held

section Step

variable {s t : State}

/-- The site is as it was, and a query has only listed what is held. -/
theorem Inv.of_site (h : Inv s) (hnow : s.now ≤ t.now) (hsite : t.site = s.site)
    (hdeferred : t.deferred = s.deferred)
    (hqueries : ∀ id q, t.queries.lookup id = some q → ∀ l ∈ q.listed, Held s l) : Inv t := by
  refine ⟨?_, ?_, ?_, ?_⟩
  · rw [hsite]
    exact h.site
  · rw [hsite]
    exact h.head
  · rw [hsite, hdeferred]
    exact h.queue
  · intro id q hq l hl
    exact (hqueries id q hq l hl).of_site hnow hsite hdeferred

theorem Inv.held_insert (h : Inv s) {id : Nat} {q : Query} (hq : ∀ l ∈ q.listed, Held s l) :
    ∀ id' q', (s.queries.insert id q).lookup id' = some q' → ∀ l ∈ q'.listed, Held s l := by
  intro id' q' hlookup
  rcases AssocMap.of_lookup_insert hlookup with ⟨_, rfl⟩ | ⟨_, hold⟩
  · exact hq
  · exact h.held id' q' hold

theorem Inv.held_erase (h : Inv s) {id : Nat} :
    ∀ id' q', (s.queries.erase id).lookup id' = some q' → ∀ l ∈ q'.listed, Held s l :=
  fun id' q' hlookup => h.held id' q' (AssocMap.of_lookup_erase hlookup).2

theorem stamped_paths (h : Inv s) {site : Cluster.State Unit} (hgrows : Grows s.site site) :
    (site.node ()).pendingGc = (stamped s site).map Prod.snd := by
  obtain ⟨new, hnew⟩ := hgrows.queue
  have hlength : (s.site.node ()).pendingGc.length = s.deferred.length := by
    rw [h.queue, List.length_map]
  unfold stamped
  rw [← hnew, ← hlength, List.drop_left, List.map_append, List.map_map, h.queue]
  simp [Function.comp_def]

/-- Only a deletion takes an object away. -/
theorem object_kept {site site' : Cluster.State Unit} {a : Cluster.Action Unit} {path : AbsPath}
    (heffect : Cluster.Effect site a site') (hobject : site.objects path ≠ none)
    (hdue : ∀ k due, site.task () k = some (.gc due) → ∀ p ∈ due, abs p ≠ path) :
    site'.objects path ≠ none := by
  cases heffect with
  | quiet harrives hsame => rwa [hsame.objects]
  | put i k T T' tag f rows hkeep htask hputs hset hlog hflushed hobjects =>
      rw [hobjects]
      by_cases hpath : path = tag.path
      · rw [hpath, Function.update_self]
        exact Option.some_ne_none rows
      · rwa [Function.update_of_ne hpath]
  | commit i k T args removed stored o hkeep htask hcommits hset hsame => rwa [hsame.objects]
  | tombstone i tombstone hact hkeep hsame => rwa [hsame.objects]
  | stale i k groups files output hkeep htask hset hsame => rwa [hsame.objects]
  | delete i k p due hkeep htask hset hobjects =>
      rw [hobjects, Function.update_of_ne (hdue k _ htask p List.mem_cons_self).symm]
      exact hobject

theorem Inv.onSite (h : Inv s) {a : Cluster.Action Unit} {site : Cluster.State Unit}
    (hfresh : Cluster.fresh s.site a) (hs : Cluster.step s.site a = some site)
    (hgrows : Grows s.site site) :
    Inv { s with site := site, deferred := stamped s site } := by
  refine ⟨h.site.step hfresh hs, hgrows.head h.head, stamped_paths h hgrows, ?_⟩
  intro id q hq l hl
  have hheld := h.held id q hq l hl
  refine ⟨hheld.since, ?_, ?_, ?_⟩
  · exact object_kept (Cluster.step_effect hs) hheld.object hheld.due
  · intro d hd heq
    rcases List.mem_append.mp hd with hold | hnew
    · exact hheld.queued d hold heq
    · obtain ⟨p, _, rfl⟩ := List.mem_map.mp hnew
      exact hheld.since
  · intro k due hT p hp
    obtain ⟨due', hT', hsub⟩ := hgrows.due k due hT
    exact hheld.due k due' hT' p (hsub hp)

/-- A pass takes what came a grace period ago, and that is nothing a query holds. -/
theorem Inv.onPass (h : Inv s) {k : Nat} (hcareful : Careful s (.runGc k))
    (hs : runGc s k = some t) : Inv t := by
  unfold runGc at hs
  split at hs
  · next hidle =>
      obtain rfl := Option.some.inj hs
      have hsub : (s.deferred.filter fun d => !(s.grace ≤ s.now - d.1)).map Prod.snd ⊆
          (s.site.node ()).pendingGc := by
        rw [h.queue]
        exact (List.filter_sublist.map Prod.snd).subset
      have hready : ∀ p ∈ (s.deferred.filter fun d => s.grace ≤ s.now - d.1).map Prod.snd,
          p ∈ (s.site.node ()).pendingGc := by
        rw [h.queue]
        exact (List.filter_sublist.map Prod.snd).subset
      have hnode := Cluster.nodeOnly_setNode s.site () { s.site.node () with
        pendingGc := (s.deferred.filter fun d => !(s.grace ≤ s.now - d.1)).map Prod.snd }
        hsub (List.Sublist.refl _)
      refine ⟨?_, ?_, ?_, ?_⟩
      · refine h.site.effect (a := .gcStart () k fun _ => true) (by rintro _ ⟨⟩)
          (hnode.effect ?_ ?_)
        · rintro _ ⟨⟩ p hp
          exact ⟨(), .inl (hready p hp)⟩
        · rintro _ ⟨⟩
          exact .inl (.gc _ hready)
      · exact h.head
      · simp [Cluster.State.setNode, Cluster.State.setTask]
      · intro id q hq l hl
        have hheld := h.held id q hq l hl
        refine ⟨hheld.since, hheld.object, ?_, ?_⟩
        · exact fun d hd heq => hheld.queued d (List.mem_of_mem_filter hd) heq
        · intro j due hT p hp
          by_cases hjk : j = k
          · subst hjk
            simp only [Cluster.State.setTask, Function.update_self, Option.some.injEq,
              Cluster.Task.gc.injEq] at hT
            obtain rfl := hT
            obtain ⟨d, hd, rfl⟩ := List.mem_map.mp hp
            obtain ⟨hin, hold⟩ := List.mem_filter.mp hd
            have hgrace : s.grace ≤ s.now - d.1 := by simpa using hold
            have hnow := hcareful q (AssocMap.mem_values.mpr ⟨id, hq⟩) l hl
            have hsince := hheld.since
            intro heq
            have hlater := hheld.queued d hin heq
            omega
          · refine hheld.due j due ?_ p hp
            simpa [Cluster.State.setTask, Cluster.State.setNode, hjk] using hT
  · cases hs

theorem Inv.onBoot (h : Inv s) {replayed : List (TableKey × Row)} {env : Admin.Env}
    (hs : boot s replayed env = some t) : Inv t := by
  obtain ⟨site, hsite, rfl⟩ := Option.map_eq_some_iff.mp hs
  have hinv : Cluster.Inv site :=
    h.site.effect (a := .restart () replayed) (by rintro _ ⟨⟩) (Cluster.restart_effect hsite)
  unfold Cluster.restart at hsite
  split at hsite
  · obtain rfl := Option.some.inj hsite
    refine ⟨hinv, by simp [Cluster.State.setNode], by simp [Cluster.State.setNode], ?_⟩
    intro id q hq
    simp at hq
  · cases hsite

theorem step_site {a : Cluster.Action Unit} (h : step s (.site a) = some t) :
    ∃ site, Cluster.step s.site a = some site ∧ Grows s.site site ∧
      t = { s with site := site, deferred := stamped s site } := by
  have hmap : step s (.site a) = (Cluster.step s.site a).map (fun site =>
      { s with site := site, deferred := stamped s site }) ∧
      (∀ i k ready, a ≠ .gcStart i k ready) ∧ ∀ i rows, a ≠ .restart i rows := by
    cases a with
    | gcStart i k ready => cases h
    | restart i rows => cases h
    | _ => exact ⟨rfl, by simp, by simp⟩
  obtain ⟨hmap, hstart, hboot⟩ := hmap
  rw [hmap] at h
  obtain ⟨site, hsite, rfl⟩ := Option.map_eq_some_iff.mp h
  exact ⟨site, hsite, step_grows hsite hstart hboot, rfl⟩

theorem Inv.step {a : Action} (h : Inv s) (hcareful : Careful s a) (hs : step s a = some t) :
    Inv t := by
  cases a with
  | tick d =>
      simp only [Grace.step] at hs
      split at hs
      · obtain rfl := Option.some.inj hs
        exact h.of_site (Nat.le_add_right _ _) rfl rfl h.held
      · cases hs
  | call id =>
      simp only [Grace.step] at hs
      split at hs
      · obtain rfl := Option.some.inj hs
        exact h.of_site (le_refl _) rfl rfl (h.held_insert fun l hl => by cases hl)
      · cases hs
  | list id key =>
      simp only [Grace.step] at hs
      split at hs
      · next listed hq =>
          obtain rfl := Option.some.inj hs
          refine h.of_site (le_refl _) rfl rfl (h.held_insert fun l hl => ?_)
          rcases List.mem_append.mp hl with hold | hnew
          · exact h.held id _ hq l hold
          · obtain ⟨p, hp, rfl⟩ := List.mem_map.mp hnew
            exact h.held_listed hp
      · cases hs
  | queue id =>
      simp only [Grace.step] at hs
      split at hs
      · next listed hq =>
          obtain rfl := Option.some.inj hs
          exact h.of_site (le_refl _) rfl rfl (h.held_insert fun l hl => h.held id _ hq l hl)
      · cases hs
  | acquire id =>
      simp only [Grace.step] at hs
      split at hs
      · next listed permits hq _ =>
          obtain rfl := Option.some.inj hs
          exact h.of_site (le_refl _) rfl rfl (h.held_insert fun l hl => h.held id _ hq l hl)
      · cases hs
  | finish id =>
      simp only [Grace.step] at hs
      split at hs
      · obtain rfl := Option.some.inj hs
        exact h.of_site (le_refl _) rfl rfl h.held_erase
      · obtain rfl := Option.some.inj hs
        exact h.of_site (le_refl _) rfl rfl h.held_erase
      · cases hs
  | config c =>
      obtain ⟨admin, _, rfl⟩ := Option.map_eq_some_iff.mp hs
      exact h.of_site (le_refl _) rfl rfl h.held
  | site a =>
      obtain ⟨site, hsite, hgrows, rfl⟩ := step_site hs
      exact h.onSite hcareful hsite hgrows
  | runGc k => exact h.onPass hcareful hs
  | boot replayed env => exact h.onBoot hs

theorem inv_start (env : Admin.Env) (docs : Admin.Documents) : Inv (start env docs) := by
  refine ⟨Cluster.inv_initial, rfl, rfl, ?_⟩
  intro id q hq
  simp [start] at hq

end Step

section Timeout

variable {s t : State}

theorem inTime_iff : s.inTime = true ↔ ∀ id q, s.queries.lookup id = some q →
    ∀ acquired, q.stage = .running acquired → s.now ≤ s.deadline acquired := by
  unfold State.inTime
  rw [List.all_eq_true]
  constructor
  · intro h id q hq acquired hstage
    have hq := h q (AssocMap.mem_values.mpr ⟨id, hq⟩)
    rw [hstage] at hq
    simpa using hq
  · intro h q hin
    obtain ⟨id, hq⟩ := AssocMap.mem_values.mp hin
    split
    · next acquired hstage => simpa using h id q hq acquired hstage
    · rfl

/-- No time passes, and a query that runs did so before or begins to. -/
theorem inTime_of_now (h : s.inTime = true) (hnow : t.now = s.now)
    (htimeout : t.timeout = s.timeout)
    (hqueries : ∀ id q, t.queries.lookup id = some q →
      (∃ id' q', s.queries.lookup id' = some q' ∧ q.stage = q'.stage) ∨
        ∀ acquired, q.stage = .running acquired → acquired = s.now) : t.inTime = true := by
  rw [inTime_iff] at h ⊢
  intro id q hq acquired hstage
  rw [hnow, State.deadline, htimeout]
  rcases hqueries id q hq with ⟨id', q', hq', heq⟩ | hnew
  · exact h id' q' hq' acquired (heq ▸ hstage)
  · rw [hnew acquired hstage]
    exact Nat.le_add_right _ _

theorem inTime_insert (h : s.inTime = true) (hnow : t.now = s.now)
    (htimeout : t.timeout = s.timeout) {id : Nat} {q : Query}
    (hqueries : t.queries = s.queries.insert id q)
    (hq : ∀ acquired, q.stage = .running acquired → acquired = s.now) : t.inTime = true := by
  refine inTime_of_now h hnow htimeout fun id' q' hlookup => ?_
  rw [hqueries] at hlookup
  rcases AssocMap.of_lookup_insert hlookup with ⟨_, rfl⟩ | ⟨_, hold⟩
  · exact .inr hq
  · exact .inl ⟨id', q', hold, rfl⟩

theorem inTime_same (h : s.inTime = true) (hnow : t.now = s.now)
    (htimeout : t.timeout = s.timeout)
    (hqueries : ∀ id q, t.queries.lookup id = some q → s.queries.lookup id = some q) :
    t.inTime = true :=
  inTime_of_now h hnow htimeout fun id q hq => .inl ⟨id, q, hqueries id q hq, rfl⟩

theorem inTime_step {a : Action} (h : s.inTime = true) (hs : step s a = some t) :
    t.inTime = true := by
  cases a with
  | tick d =>
      simp only [step] at hs
      split at hs
      · next htime =>
          obtain rfl := Option.some.inj hs
          exact htime
      · cases hs
  | call id =>
      simp only [step] at hs
      split at hs
      · obtain rfl := Option.some.inj hs
        exact inTime_insert h rfl rfl rfl (by rintro _ ⟨⟩)
      · cases hs
  | list id key =>
      simp only [step] at hs
      split at hs
      · obtain rfl := Option.some.inj hs
        exact inTime_insert h rfl rfl rfl (by rintro _ ⟨⟩)
      · cases hs
  | queue id =>
      simp only [step] at hs
      split at hs
      · obtain rfl := Option.some.inj hs
        exact inTime_insert h rfl rfl rfl (by rintro _ ⟨⟩)
      · cases hs
  | acquire id =>
      simp only [step] at hs
      split at hs
      · obtain rfl := Option.some.inj hs
        refine inTime_insert h rfl rfl rfl ?_
        rintro _ ⟨⟩
        rfl
      · cases hs
  | finish id =>
      simp only [step] at hs
      split at hs
      · obtain rfl := Option.some.inj hs
        exact inTime_same h rfl rfl fun _ _ hq => (AssocMap.of_lookup_erase hq).2
      · obtain rfl := Option.some.inj hs
        exact inTime_same h rfl rfl fun _ _ hq => (AssocMap.of_lookup_erase hq).2
      · cases hs
  | config c =>
      obtain ⟨admin, _, rfl⟩ := Option.map_eq_some_iff.mp hs
      exact inTime_same h rfl rfl fun _ _ hq => hq
  | site a =>
      obtain ⟨site, _, _, rfl⟩ := step_site hs
      exact inTime_same h rfl rfl fun _ _ hq => hq
  | runGc k =>
      simp only [step, runGc] at hs
      split at hs
      · obtain rfl := Option.some.inj hs
        exact inTime_same h rfl rfl fun _ _ hq => hq
      · cases hs
  | boot replayed env =>
      obtain ⟨site, _, rfl⟩ := Option.map_eq_some_iff.mp hs
      rfl

/-- At every pass each query in flight got its permit soon enough for the timeout of the
boot to end within the grace, or still waits and has listed its files a shorter time
ago than the grace. -/
def Prompt (s : State) : Action → Prop
  | .site a => Cluster.fresh s.site a
  | .runGc _ => ∀ q ∈ s.queries.values, ∀ l ∈ q.listed,
      match q.stage with
      | .running acquired => s.deadline acquired < l.1 + s.grace
      | _ => s.now < l.1 + s.grace
  | _ => True

/-- The timer keeps such a run careful: with no wait it is enough that the grace of
every pass exceeds the timeout of the boot. -/
theorem prompt_run_careful {acts : List Action} (run : Run step Prompt s acts t)
    (h : s.inTime = true) : Run step Careful s acts t := by
  induction run with
  | nil s => exact .nil s
  | @cons s u t a acts hok hs _ ih =>
      refine .cons ?_ hs (ih (inTime_step h hs))
      cases a with
      | runGc k =>
          intro q hq l hl
          have hprompt := hok q hq l hl
          obtain ⟨id, hlookup⟩ := AssocMap.mem_values.mp hq
          split at hprompt
          · next acquired hstage =>
              exact (inTime_iff.mp h id q hlookup acquired hstage).trans_lt hprompt
          · exact hprompt
      | _ => exact hok

end Timeout

/-- In every run of a node, over any clock, with queries that wait for as long as they
like, any changes of the configuration and any boots: if the node writes to unused
paths only, and a pass of `run_gc` begins only while no query in flight has listed its
files a grace period ago or longer, then no step deletes a path of a query that has not
returned, and the object of every such path is there. -/
theorem in_flight_spared {env : Admin.Env} {docs : Admin.Documents} {acts : List Action}
    {s : State} (run : Run step Careful (start env docs) acts s) :
    ∀ id q, s.queries.lookup id = some q → ∀ l ∈ q.listed,
      s.site.objects (abs l.2) ≠ none ∧ ∀ a p, deletes s a = some p → abs p ≠ abs l.2 := by
  have hinv : Inv s := run.invariant (fun _ _ _ h hok hs => h.step hok hs) (inv_start env docs)
  intro id q hq l hl
  have hheld := hinv.held id q hq l hl
  exact ⟨hheld.object, fun a p hp => hheld.not_deleted hp⟩

section Sample

/-- Two files of one hour, and their merge up to the upload. -/
def twoFiles : List Action :=
  (Cluster.storeRow () 0 100 [] ++ Cluster.storeRow () 0 200 []).map .site

def merge : List Action :=
  (Cluster.mergeTwo () 0 ++ [Cluster.Action.compactCommit () 0 2]).map .site

/-- A query that has its permit at once: a pass ten minutes later finds it running. -/
def promptQuery : List Action :=
  twoFiles ++ [.call 1, .list 1 ("d", "m"), .queue 1, .acquire 1] ++ merge ++
    [.tick (600 * second), .runGc 1]

/-- `Careful`, with writes whose tags are new. -/
def Watched (s : State) : Action → Prop
  | .site a => Cluster.unseen s.site a
  | .runGc _ => ∀ q ∈ s.queries.values, ∀ l ∈ q.listed, s.now < l.1 + s.grace
  | _ => True

instance (s : State) : DecidablePred (Watched s)
  | .site _ => inferInstanceAs (Decidable (Cluster.unseen _ _))
  | .runGc _ => inferInstanceAs (Decidable (∀ q ∈ s.queries.values, ∀ l ∈ q.listed, _ < _))
  | .tick _ | .call _ | .list _ _ | .queue _ | .acquire _ | .finish _ | .config _
  | .boot _ _ => .isTrue trivial

theorem careful_of_watched {s : State} {a : Action} (h : Watched s a) : Careful s a := by
  cases a with
  | site a => exact Cluster.fresh_of_unseen h
  | _ => exact h

def noDocuments : Admin.Documents := ⟨none, none, none, none⟩

/-- The query of the run has listed both files and runs; they are there. -/
theorem promptQuery_spared : ∃ s,
    Run step Careful (start ⟨.default, [], []⟩ noDocuments) promptQuery s ∧ ∃ q,
       s.queries.lookup 1 = some q ∧ q.stage = .running 0 ∧ q.listed.length = 2 ∧
      ∀ l ∈ q.listed, s.site.objects (abs l.2) ≠ none := by
  obtain ⟨s, run, hq⟩ := exists_run_of_checkedRun step Watched
    (start ⟨.default, [], []⟩ noDocuments) promptQuery
    (fun s => (s.queries.lookup 1).map fun q => (q.stage, q.listed.length))
    (some (.running 0, 2)) (by decide +kernel)
  have hcareful := run.mono fun _ _ h => careful_of_watched h
  obtain ⟨q, hlookup, hstage⟩ := Option.map_eq_some_iff.mp hq
  obtain ⟨hrunning, hlength⟩ := Prod.mk.inj hstage
  exact ⟨s, hcareful, q, hlookup, hrunning, hlength,
    fun l hl => (in_flight_spared hcareful 1 q hlookup l hl).1⟩

/-- One permit. -/
def oneAtATime : Admin.Env :=
  ⟨{ Admin.EngineConfig.default with maxConcurrentQueries := 1 }, [], []⟩

/-- The second query lists both files and waits ten minutes for the first, which takes
all of its timeout. Meanwhile the files are merged. Five minutes on a pass begins. -/
def waitsForPermit : List Action :=
  twoFiles ++
    [.call 1, .list 1 ("d", "m"), .queue 1, .acquire 1, .call 2, .list 2 ("d", "m"), .queue 2] ++
    merge ++ [.tick (600 * second), .finish 1, .acquire 2, .tick (300 * second), .runGc 1]

/-- The grace exceeds the timeout, by the layers and by what is published, and the node
writes to new paths. -/
def Configured (s : State) : Action → Prop
  | .site a => Admin.CrossFieldKept s.admin.1 ∧ Cluster.unseen s.site a
  | _ => Admin.CrossFieldKept s.admin.1

instance (s : State) : Decidable (Admin.CrossFieldKept s.admin.1) :=
  inferInstanceAs (Decidable (_ ∧ _))

instance (s : State) : DecidablePred (Configured s)
  | .site _ => inferInstanceAs (Decidable (Admin.CrossFieldKept s.admin.1 ∧ Cluster.unseen _ _))
  | .tick _ | .call _ | .list _ _ | .queue _ | .acquire _ | .finish _ | .config _ | .runGc _
  | .boot _ _ => inferInstanceAs (Decidable (Admin.CrossFieldKept s.admin.1))

/-- The pass deletes a file of the second query, which has five minutes left to run. -/
theorem waiting_query_loses_file : ∃ s,
    Run step Configured (start oneAtATime noDocuments) waitsForPermit s ∧
      Admin.CrossFieldKept s.admin.1 ∧ ∃ q, s.queries.lookup 2 = some q ∧
        q.stage = .running (600 * second) ∧ s.now = 900 * second ∧
        s.deadline (600 * second) = 1200 * second ∧
        ∃ l ∈ q.listed, deletes s (.site (.gcDelete () 1)) = some l.2 := by
  obtain ⟨s, run, hs⟩ := exists_run_of_checkedRun step Configured (start oneAtATime noDocuments)
    waitsForPermit
    (fun s => ((s.queries.lookup 2).map fun q =>
        (q.stage, q.listed.any fun l => deletes s (.site (.gcDelete () 1)) = some l.2),
      s.now, s.deadline (600 * second), decide (Admin.CrossFieldKept s.admin.1)))
    (some (.running (600 * second), true), 900 * second, 1200 * second, true)
    (by decide +kernel)
  simp only [Prod.mk.injEq, decide_eq_true_eq] at hs
  obtain ⟨hquery, hnow, hdeadline, hkept⟩ := hs
  obtain ⟨q, hlookup, hq⟩ := Option.map_eq_some_iff.mp hquery
  obtain ⟨hstage, hany⟩ := Prod.mk.inj hq
  obtain ⟨l, hl, hdeletes⟩ := List.any_eq_true.mp hany
  exact ⟨s, run, hkept, q, hlookup, hstage, hnow, hdeadline, l, hl, of_decide_eq_true hdeletes⟩

end Sample

end TimeLake.Grace
