import TimeLake.Querier.Machine

/-!
What an ingester finds of its rows while others write to the store and the log.
Its view is an `Engine.State`, so what `Engine.Visibility` says of one engine
applies to it; the steps of the others reach it only through the objects and the
entries they add. A row an ingester acknowledged is in its memory or in the files
of the log as far as its own catalog has folded it.
-/

namespace TimeLake.Querier

open TimeLake.Library TimeLake.Catalog TimeLake.Rows TimeLake.Store TimeLake.Cluster

variable {ι : Type}

def content (s : State ι) (q : AbsPath) : List Row := (s.objects q).getD []

/-- The view of an ingester whose catalog has folded the whole log. -/
def wholeView (s : State ι) (i : ι) : Engine.State := { view s i with log := s.log }

/-- No other ingester has uploaded a file to the object and not yet committed it. -/
def unclaimed [DecidableEq ι] (peers : List ι) (s : State ι) (i : ι) (q : AbsPath) : Prop :=
  ∀ j ∈ peers, j ≠ i → ∀ F ∈ AssocMap.values (s.ingester j).flights, ∀ g ∈ F.outputs,
    objectOf g ≠ q

instance [DecidableEq ι] (peers : List ι) (s : State ι) (i : ι) (q : AbsPath) :
    Decidable (unclaimed peers s i q) :=
  inferInstanceAs (Decidable (∀ j ∈ peers, _))

/-- A handover takes its turn, and an upload goes to an object that nothing else
needs. -/
def keepsRows [DecidableEq ι] (peers : List ι) (s : State ι) : Action ι → Prop
  | .ingest i a =>
      Engine.keepsBatches (wholeView s i) a ∧
        ∀ put ∈ Engine.nextUpload (wholeView s i) a, unclaimed peers s i put.1
  | _ => True

instance [DecidableEq ι] (peers : List ι) (s : State ι) :
    (a : Action ι) → Decidable (keepsRows peers s a)
  | .ingest i a => inferInstanceAs (Decidable (Engine.keepsBatches (wholeView s i) a ∧
      ∀ put ∈ Engine.nextUpload (wholeView s i) a, unclaimed peers s i put.1))
  | .land .. | .heard .. | .catchUp .. | .tail _ | .start _ | .read _ | .answer _ | .lose _
  | .polled | .listTables _ | .gathered | .caught _ | .listFiles _ | .scan .. =>
      inferInstanceAs (Decidable True)

section Log

def addsOnly (log : List ManifestEntry) : Prop :=
  ∀ e ∈ log, e.removePaths = [] ∧ e.dropTables = []

theorem listed_append {log more : List ManifestEntry} (h : addsOnly more) :
    listed log ⊆ listed (log ++ more) := by
  induction more generalizing log with
  | nil => simp
  | cons e rest ih =>
      obtain ⟨hremove, hdrop⟩ := h e List.mem_cons_self
      have hrest : listed (log ++ [e]) ⊆ listed (log ++ [e] ++ rest) :=
        ih fun e' he' => h e' (List.mem_cons_of_mem _ he')
      rw [List.append_assoc, List.singleton_append] at hrest
      intro f hf
      refine hrest (mem_listed_snoc.mpr ⟨.inl ⟨hf, ?_⟩, ?_⟩)
      · simp [hremove]
      · simp [droppedBy, hdrop]

/-- Behind `base` the log only adds, so a longer part of it lists more. -/
theorem listed_take_subset {log : List ManifestEntry} {base m n : Nat}
    (h : addsOnly (log.drop base)) (hbase : base ≤ m) (hmn : m ≤ n) :
    listed (log.take m) ⊆ listed (log.take n) := by
  have hsplit : log.take n = log.take m ++ (log.take n).drop m := by
    conv_lhs => rw [← List.take_append_drop m (log.take n)]
    rw [List.take_take, Nat.min_eq_left hmn]
  rw [hsplit]
  refine listed_append fun e he => h e ?_
  have hin : e ∈ (log.drop base).drop (m - base) := by
    rw [List.drop_drop, Nat.add_sub_cancel' hbase]
    rw [List.drop_take] at he
    exact List.mem_of_mem_take he
  exact List.mem_of_mem_drop hin

theorem listed_take_subset_listed {log : List ManifestEntry} {base m : Nat}
    (h : addsOnly (log.drop base)) (hbase : base ≤ m) : listed (log.take m) ⊆ listed log := by
  have hsub := listed_take_subset h hbase (Nat.le_max_left m log.length)
  rwa [List.take_of_length_le (Nat.le_max_right _ _)] at hsub

end Log

/-- What a step of an engine that is not a commit does to the rest: it appends
rows, and puts at most one object. -/
structure Leaves (a : Engine.Action) (e e' : Engine.State) : Prop where
  log : e'.log = e.log
  arrivals : e.arrivals ≤ e'.arrivals
  acked : e.acked ⊆ e'.acked
  objects : e'.objects = e.objects ∨ ∃ put ∈ Engine.nextUpload e a,
    e'.objects = Function.update e.objects put.1 (some put.2)

theorem leaves_of_step {e e' : Engine.State} {a : Engine.Action} (ha : ofIngester a = true)
    (hs : Engine.step e a = some e') : Leaves a e e' := by
  cases a with
  | write db lines now applied =>
      obtain rfl := Option.some.inj hs
      refine ⟨rfl, Nat.le_add_right _ _, ?_, .inl rfl⟩
      simp only [Engine.write]
      split
      · exact List.subset_append_left _ _
      · exact List.Subset.refl _
  | handover k columns rotation unreadable =>
      simp only [Engine.step, Engine.handover] at hs
      split at hs
      · cases rotation <;> obtain rfl := Option.some.inj hs <;>
          exact ⟨rfl, Nat.le_refl _, List.Subset.refl _, .inl rfl⟩
      · cases hs
  | upload k size =>
      obtain ⟨F, f, rows, F', _, _, hput, rfl⟩ := Engine.upload_cases hs
      exact ⟨rfl, Nat.le_refl _, List.Subset.refl _, .inr ⟨_, hput, rfl⟩⟩
  | uploadFail k bumped =>
      simp only [Engine.step, Engine.uploadFail] at hs
      split at hs
      · obtain rfl := Option.some.inj hs
        exact ⟨rfl, Nat.le_refl _, List.Subset.refl _, .inl rfl⟩
      · cases hs
  | commit k result =>
      simp only [Engine.step, Engine.commit] at hs
      split at hs
      · cases result with
        | ok => cases ha
        | failed landed =>
            cases landed with
            | true => cases ha
            | false =>
                obtain rfl := Option.some.inj hs
                exact ⟨rfl, Nat.le_refl _, List.Subset.refl _, .inl rfl⟩
      · cases hs
  | release k =>
      simp only [Engine.step, Engine.release] at hs
      split at hs
      · obtain rfl := Option.some.inj hs
        exact ⟨rfl, Nat.le_refl _, List.Subset.refl _, .inl rfl⟩
      · cases hs
  | reclaim k deleted =>
      obtain ⟨_, _, _, _, _, rfl⟩ := Engine.reclaim_cases hs
      exact ⟨rfl, Nat.le_refl _, List.Subset.refl _, .inl rfl⟩
  | recover => cases ha
  | drop => cases ha
  | reopen => cases ha

/-- What every step leaves to the readers of the log and of the listed files. -/
structure Grows (s t : State ι) : Prop where
  log : ∃ more, t.log = s.log ++ more ∧ addsOnly more
  kept : ∀ f ∈ listed s.log, ∀ r ∈ content s (objectOf f),
    ∃ r' ∈ content t (objectOf f), Supersedes r' r
  acked : ∀ i, (s.ingester i).acked ⊆ (t.ingester i).acked
  heads : ∀ i, s.ingesterHead i ≤ t.ingesterHead i
  head : s.head ≤ t.head

/-- The row is in a file that a part of the log lists, no longer than `h` and not
shorter than `base`. -/
def filedUpto (base : Nat) (s : State ι) (h : Nat) (p : TableKey × Row) : Prop :=
  ∃ n, base ≤ n ∧ n ≤ h ∧ n ≤ s.log.length ∧ Retains (content s) (listed (s.log.take n)) p

section Grows

variable {s t : State ι} {base : Nat} {p : TableKey × Row}

theorem Grows.of_eq (hlog : t.log = s.log) (hobjects : t.objects = s.objects)
    (hingester : t.ingester = s.ingester) (hheads : t.ingesterHead = s.ingesterHead)
    (hhead : s.head ≤ t.head) : Grows s t := by
  refine ⟨⟨[], by simp [hlog], fun e he => by cases he⟩, ?_, ?_, ?_, hhead⟩
  · intro f _ r hr
    refine ⟨r, ?_, rfl, Nat.le_refl _⟩
    rw [content, hobjects]
    exact hr
  · exact fun i => by rw [hingester]; exact List.Subset.refl _
  · exact fun i => by rw [hheads]

theorem filedUpto.mono {h h' : Nat} (hfiled : filedUpto base s h p) (hle : h ≤ h') :
    filedUpto base s h' p := by
  obtain ⟨n, hbase, hn, hrest⟩ := hfiled
  exact ⟨n, hbase, Nat.le_trans hn hle, hrest⟩

/-- A retained row stays retained by the same files. -/
theorem Grows.retains (hgrows : Grows s t) {files : List FileMeta}
    (hfiles : files ⊆ listed s.log) (h : Retains (content s) files p) :
    Retains (content t) files p := by
  obtain ⟨f, hf, hkey, r, hr, hlater⟩ := h
  obtain ⟨r', hr', hover⟩ := hgrows.kept f (hfiles hf) r hr
  exact ⟨f, hf, hkey, r', hr', hover.1.trans hlater.1, Nat.le_trans hlater.2 hover.2⟩

theorem filedUpto.grows {h : Nat} (hfiled : filedUpto base s h p) (hgrows : Grows s t)
    (hadds : addsOnly (s.log.drop base)) : filedUpto base t h p := by
  obtain ⟨n, hbase, hn, hlength, hretains⟩ := hfiled
  obtain ⟨more, hlog, _⟩ := hgrows.log
  have hkept := hgrows.retains (listed_take_subset_listed hadds hbase) hretains
  refine ⟨n, hbase, hn, ?_, ?_⟩
  · rw [hlog, List.length_append]
    omega
  · rw [hlog, List.take_append_of_le_length hlength]
    exact hkept

theorem filedUpto.retains {h : Nat} (hfiled : filedUpto base s h p)
    (hadds : addsOnly (s.log.drop base)) :
    base ≤ h ∧ Retains (content s) (listed (s.log.take h)) p := by
  obtain ⟨n, hbase, hn, _, hretains⟩ := hfiled
  exact ⟨Nat.le_trans hbase hn, hretains.mono (listed_take_subset hadds hbase hn)⟩

end Grows

section Views

variable {s t : State ι} {peers : List ι} {base : Nat}

/-- Each ingester finds the rows it acknowledged in its memory or in the files of
the log as far as it has folded it. -/
structure ViewInv (peers : List ι) (base : Nat) (s : State ι) : Prop where
  behind : base ≤ s.log.length
  adds : addsOnly (s.log.drop base)
  heads : ∀ i ∈ peers, base ≤ s.ingesterHead i ∧ s.ingesterHead i ≤ s.log.length
  visible : ∀ i ∈ peers, Engine.Visible (view s i)

theorem ViewInv.of_view (h : ViewInv peers base s) (hgrows : Grows s t)
    (hheads : ∀ i ∈ peers, t.ingesterHead i ≤ t.log.length)
    (hview : ∀ i ∈ peers, Engine.Visible (view t i)) : ViewInv peers base t := by
  obtain ⟨more, hlog, hmore⟩ := hgrows.log
  refine ⟨?_, ?_, ?_, hview⟩
  · rw [hlog, List.length_append]
    exact Nat.le_add_right_of_le h.behind
  · rw [hlog, List.drop_append_of_le_length h.behind]
    intro e he
    rcases List.mem_append.mp he with hold | hnew
    · exact h.adds e hold
    · exact hmore e hnew
  · exact fun i hi => ⟨Nat.le_trans (h.heads i hi).1 (hgrows.heads i), hheads i hi⟩

theorem land_cases {i : ι} {k : Nat} (hs : land s i k = some t) :
    ∃ metas, t = { s with log := s.log ++ [flushEntry metas (s.log.length + 1)] } := by
  simp only [land] at hs
  split at hs
  · split at hs
    · exact ⟨_, (Option.some.inj hs).symm⟩
    · cases hs
  · cases hs

theorem Grows.land {i : ι} {k : Nat} (hs : land s i k = some t) : Grows s t := by
  obtain ⟨metas, rfl⟩ := land_cases hs
  refine ⟨⟨_, rfl, ?_⟩, fun _ _ r hr => ⟨r, hr, rfl, Nat.le_refl _⟩,
    fun _ => List.Subset.refl _, fun _ => Nat.le_refl _, Nat.le_refl _⟩
  intro e he
  obtain rfl := List.mem_singleton.mp he
  exact ⟨rfl, rfl⟩

theorem ViewInv.land (h : ViewInv peers base s) {i : ι} {k : Nat} (hs : land s i k = some t) :
    ViewInv peers base t := by
  have hgrows := Grows.land hs
  obtain ⟨metas, rfl⟩ := land_cases hs
  refine h.of_view hgrows ?_ ?_
  · intro j hj
    simp only [List.length_append]
    exact Nat.le_add_right_of_le (h.heads j hj).2
  · intro j hj
    have hsame : view { s with log := s.log ++ [flushEntry metas (s.log.length + 1)] } j =
        view s j := by
      simp only [view, List.take_append_of_le_length (h.heads j hj).2]
    rw [hsame]
    exact h.visible j hj

variable [DecidableEq ι]

theorem Grows.ingest {i : ι} {a : Engine.Action} (hok : keepsRows peers s (.ingest i a))
    (hs : ingest s i a = some t) : Grows s t := by
  simp only [Querier.ingest] at hs
  split at hs
  · next ha =>
      obtain ⟨e, he, rfl⟩ := Option.map_eq_some_iff.mp hs
      have hleaves := leaves_of_step ha he
      refine ⟨⟨[], by simp [setIngester], fun e he => by cases he⟩, ?_, ?_, fun _ => Nat.le_refl _,
        Nat.le_refl _⟩
      · intro f hf r hr
        rcases hleaves.objects with hsame | ⟨put, hput, hobjects⟩
        · refine ⟨r, ?_, rfl, Nat.le_refl _⟩
          rw [content, setIngester, hsame]
          exact hr
        · by_cases hq : objectOf f = put.1
          · rw [hq] at hr
            obtain ⟨r', hr', hover⟩ := hok.1.1 put hput ⟨f, hf, hq⟩ r hr
            refine ⟨r', ?_, hover⟩
            simpa [content, setIngester, hobjects, hq] using hr'
          · refine ⟨r, ?_, rfl, Nat.le_refl _⟩
            simpa [content, setIngester, hobjects, hq, view] using hr
      · intro j
        by_cases hj : j = i
        · subst hj
          simpa [setIngester, view] using hleaves.acked
        · simp [setIngester, hj]
  · cases hs

/-- An ingester sees what another one does only in the store. -/
theorem ViewInv.ingest (h : ViewInv peers base s) {i : ι} {a : Engine.Action} (hi : i ∈ peers)
    (hok : keepsRows peers s (.ingest i a)) (hs : ingest s i a = some t) :
    ViewInv peers base t := by
  have hgrows := Grows.ingest hok hs
  simp only [Querier.ingest] at hs
  split at hs
  · next ha =>
      obtain ⟨e, he, rfl⟩ := Option.map_eq_some_iff.mp hs
      have hleaves := leaves_of_step ha he
      have hlisted := listed_take_subset_listed h.adds (h.heads i hi).1
      refine ⟨h.behind, h.adds, h.heads, ?_⟩
      intro j hj
      by_cases hji : j = i
      · subst hji
        have hown : view { setIngester s j e with lengths := lengthsAfter s j a } j = e := by
          have hlog := hleaves.log
          cases e
          simp only [view] at hlog
          simp [view, setIngester, hlog]
        rw [hown]
        refine (h.visible j hj).step ⟨?_, hok.1.2⟩ he
        rintro put hput ⟨f, hf, hq⟩
        exact hok.1.1 put hput ⟨f, hlisted hf, hq⟩
      · have hother : view { setIngester s i e with lengths := lengthsAfter s i a } j =
            { view s j with objects := e.objects, arrivals := e.arrivals } := by
          simp [view, setIngester, hji]
        rw [hother]
        refine (h.visible j hj).elsewhere hleaves.arrivals ?_ ?_
        · intro k F hF g hg
          rcases hleaves.objects with hsame | ⟨put, hput, hobjects⟩
          · rw [hsame]
            rfl
          · have hne : objectOf g ≠ put.1 :=
              hok.2 put hput j hj hji F (AssocMap.mem_values.mpr ⟨k, hF⟩) g hg
            rw [hobjects, Function.update_of_ne hne]
            rfl
        · intro p hp
          exact hgrows.retains (listed_take_subset_listed h.adds (h.heads j hj).1) hp
  · cases hs

/-- The catalog of an ingester takes its own manifest. -/
theorem heard_cases {i : ι} {k : Nat} (hs : heard s i k = some t) :
    ∃ e metas, Engine.step (view s i) (.commit k .ok) = some e ∧
      s.log[s.ingesterHead i]? = some (flushEntry metas (s.ingesterHead i + 1)) ∧
      e = { view s i with log := Engine.addEntry (view s i) metas, flights := e.flights } ∧
      t = { setIngester s i e with
        ingesterHead := Function.update s.ingesterHead i (s.ingesterHead i + 1) } := by
  simp only [heard] at hs
  split at hs
  · next gen failed current metas done hF =>
      split at hs
      · next hlanded =>
          obtain ⟨e, he, rfl⟩ := Option.map_eq_some_iff.mp hs
          refine ⟨e, metas, he, hlanded, ?_, rfl⟩
          have hview : (view s i).flights.lookup k =
              some (.uploading gen failed [] current metas done) := hF
          simp only [Engine.step, Engine.commit, hview] at he
          obtain rfl := Option.some.inj he
          rfl
      · cases hs
  · cases hs

theorem Grows.heard {i : ι} {k : Nat} (hs : heard s i k = some t) : Grows s t := by
  obtain ⟨e, metas, _, _, he, rfl⟩ := heard_cases hs
  have hobjects : e.objects = s.objects := by rw [he]; rfl
  have hacked : e.acked = (s.ingester i).acked := by rw [he]; rfl
  refine ⟨⟨[], by simp [setIngester], fun e he => by cases he⟩, ?_, ?_, ?_, Nat.le_refl _⟩
  · intro f _ r hr
    refine ⟨r, ?_, rfl, Nat.le_refl _⟩
    simpa [content, setIngester, hobjects] using hr
  · intro j
    by_cases hj : j = i
    · subst hj
      simp [setIngester, hacked]
    · simp [setIngester, hj]
  · intro j
    by_cases hj : j = i
    · subst hj
      simp
    · simp [hj]

theorem ViewInv.heard (h : ViewInv peers base s) {i : ι} {k : Nat} (hi : i ∈ peers)
    (hs : heard s i k = some t) : ViewInv peers base t := by
  have hgrows := Grows.heard hs
  obtain ⟨e, metas, hstep, hlanded, he, rfl⟩ := heard_cases hs
  obtain ⟨hlt, hentry⟩ := List.getElem?_eq_some_iff.mp hlanded
  have hobjects : e.objects = s.objects := by rw [he]; rfl
  have harrivals : e.arrivals = s.arrivals := by rw [he]; rfl
  refine h.of_view hgrows ?_ ?_
  · intro j hj
    by_cases hji : j = i
    · subst hji
      simpa [setIngester] using Nat.succ_le_of_lt hlt
    · simpa [setIngester, hji] using (h.heads j hj).2
  · intro j hj
    by_cases hji : j = i
    · subst hji
      -- the entry at the head is the one the engine's commit appends to its view
      have hlog : e.log = s.log.take (s.ingesterHead j + 1) := by
        rw [he, List.take_add_one, hlanded]
        simp only [Engine.addEntry, view, List.length_take, Nat.min_eq_left (Nat.le_of_lt hlt)]
        rfl
      have hown : view { setIngester s j e with
          ingesterHead := Function.update s.ingesterHead j (s.ingesterHead j + 1) } j = e := by
        simp only [view, setIngester, Function.update_self, ← hlog]
      rw [hown]
      exact (h.visible j hj).commit hstep
    · have hother : view { setIngester s i e with
          ingesterHead := Function.update s.ingesterHead i (s.ingesterHead i + 1) } j =
            view s j := by
        simp [view, setIngester, hji, hobjects, harrivals]
      rw [hother]
      exact h.visible j hj

theorem Grows.catchUp {i : ι} {seen : Nat} (hs : catchUp s i seen = some t) : Grows s t := by
  simp only [Querier.catchUp] at hs
  split at hs
  · next hseen =>
      obtain rfl := Option.some.inj hs
      refine ⟨⟨[], by simp, fun e he => by cases he⟩, fun _ _ r hr => ⟨r, hr, rfl, Nat.le_refl _⟩,
        fun _ => List.Subset.refl _, ?_, Nat.le_refl _⟩
      intro j
      by_cases hj : j = i
      · subst hj
        simpa using hseen.1
      · simp [hj]
  · cases hs

theorem ViewInv.catchUp (h : ViewInv peers base s) {i : ι} {seen : Nat}
    (hs : catchUp s i seen = some t) : ViewInv peers base t := by
  have hgrows := Grows.catchUp hs
  simp only [Querier.catchUp] at hs
  split at hs
  · next hseen =>
      obtain rfl := Option.some.inj hs
      refine h.of_view hgrows ?_ ?_
      · intro j hj
        by_cases hji : j = i
        · subst hji
          simpa using hseen.2
        · simpa [hji] using (h.heads j hj).2
      · intro j hj
        by_cases hji : j = i
        · subst hji
          have hmore := listed_take_subset h.adds (h.heads j hj).1 hseen.1
          have hview : view { s with
              ingesterHead := Function.update s.ingesterHead j seen } j =
                { view s j with log := s.log.take seen } := by
            simp [view]
          rw [hview]
          exact (h.visible j hj).elsewhere (Nat.le_refl _) (fun _ _ _ _ _ => rfl)
            fun p hp => Retains.mono hp hmore
        · have hother : view { s with
              ingesterHead := Function.update s.ingesterHead i seen } j = view s j := by
            simp [view, hji]
          rw [hother]
          exact h.visible j hj
  · cases hs

end Views

end TimeLake.Querier
