import TimeLake.Querier.Views

/-!
A query that answers has every row acknowledged before it started. An ingester
answers with its rows first and its catalog head after them, so a row that is no
longer in its memory is in a file up to that head; the querier folds the log at
least to the highest head before it lists the files. What this rests on is what
keeps a row in one of those places: a handover finds the place of its table free,
and an upload replaces no object that a listed file, or a flush of another
ingester, still needs.
-/

namespace TimeLake.Querier

open TimeLake.Library TimeLake.Catalog TimeLake.Rows TimeLake.Store TimeLake.Cluster

variable {ι : Type}

section Query

/-- The row was acknowledged by the ingester before the query started. -/
def awaited (s : State ι) (name : String) (i : ι) (p : TableKey × Row) : Prop :=
  p ∈ s.before i ∧ p.1 = (s.db, name)

/-- What is not in the rows an ingester sent is in files up to the head it sent
or will send. -/
def ReplyOk (base : Nat) (s : State ι) (name : String) (i : ι) : Request (List Row) → Prop
  | .read _ rows =>
      ∀ p, awaited s name i p → p.2 ∈ rows ∨ filedUpto base s (s.ingesterHead i) p
  | .answered rows head => ∀ p, awaited s name i p → p.2 ∈ rows ∨ filedUpto base s head p
  | _ => True

def LiveOk (peers : List ι) (base : Nat) (s : State ι) (live : List (String × List Row))
    (h : Nat) : Prop :=
  ∀ taken ∈ live, ∀ i ∈ peers, ∀ p, awaited s taken.1 i p →
    p.2 ∈ taken.2 ∨ filedUpto base s h p

/-- A row of the table has been read or is in a file still to be read. -/
def ProviderOk (peers : List ι) (s : State ι) (name : String) : Provider → Prop
  | .lazyTable rows files => ∀ i ∈ peers, ∀ p, awaited s name i p →
      (∃ r ∈ rows, Supersedes r p.2) ∨
        ∃ f ∈ files, f ∈ listed s.log ∧ ∃ r ∈ content s (objectOf f), Supersedes r p.2
  | .errorTable => True

def QueryOk (peers : List ι) (base : Nat) (s : State ι) : Query ι → Prop
  | .taking name fan _ live watermark =>
      (∀ i ∈ peers, ReplyOk base s name i (fan i)) ∧ LiveOk peers base s live watermark
  | .catching live watermark => LiveOk peers base s live watermark
  | .listing live tables =>
      LiveOk peers base s live s.head ∧ ∀ table ∈ tables, ProviderOk peers s table.1 table.2
  | .scanning tables => ∀ table ∈ tables, ProviderOk peers s table.1 table.2
  | _ => True

structure Inv (peers : List ι) (base : Nat) (s : State ι) : Prop where
  views : ViewInv peers base s
  known : ∀ i, s.before i ⊆ (s.ingester i).acked
  query : QueryOk peers base s s.query

variable {s t : State ι} {peers : List ι} {base : Nat}

theorem ReplyOk.grows {name : String} {i : ι} {reply : Request (List Row)}
    (h : ReplyOk base s name i reply) (hgrows : Grows s t)
    (hadds : addsOnly (s.log.drop base)) (hdb : t.db = s.db) (hbefore : t.before = s.before) :
    ReplyOk base t name i reply := by
  cases reply with
  | asked => trivial
  | failed => trivial
  | read retries rows =>
      intro p hp
      rw [awaited, hdb, hbefore] at hp
      exact (h p hp).imp id fun hfiled => (hfiled.grows hgrows hadds).mono (hgrows.heads i)
  | answered rows head =>
      intro p hp
      rw [awaited, hdb, hbefore] at hp
      exact (h p hp).imp id fun hfiled => hfiled.grows hgrows hadds

theorem LiveOk.grows {live : List (String × List Row)} {h h' : Nat}
    (hlive : LiveOk peers base s live h) (hgrows : Grows s t)
    (hadds : addsOnly (s.log.drop base)) (hdb : t.db = s.db) (hbefore : t.before = s.before)
    (hle : h ≤ h') : LiveOk peers base t live h' := by
  intro taken htaken i hi p hp
  rw [awaited, hdb, hbefore] at hp
  exact (hlive taken htaken i hi p hp).imp id fun hfiled => (hfiled.grows hgrows hadds).mono hle

theorem ProviderOk.grows {name : String} {provider : Provider}
    (h : ProviderOk peers s name provider) (hgrows : Grows s t) (hdb : t.db = s.db)
    (hbefore : t.before = s.before) : ProviderOk peers t name provider := by
  cases provider with
  | errorTable => trivial
  | lazyTable rows files =>
      intro i hi p hp
      rw [awaited, hdb, hbefore] at hp
      refine (h i hi p hp).imp id ?_
      rintro ⟨f, hf, hlisted, r, hr, hlater⟩
      obtain ⟨r', hr', hover⟩ := hgrows.kept f hlisted r hr
      obtain ⟨more, hlog, hmore⟩ := hgrows.log
      refine ⟨f, hf, ?_, r', hr', hover.1.trans hlater.1, Nat.le_trans hlater.2 hover.2⟩
      rw [hlog]
      exact listed_append hmore hlisted

/-- A query takes no notice of the steps of others. -/
theorem QueryOk.grows {query : Query ι} (h : QueryOk peers base s query) (hgrows : Grows s t)
    (hadds : addsOnly (s.log.drop base)) (hdb : t.db = s.db) (hbefore : t.before = s.before) :
    QueryOk peers base t query := by
  cases query with
  | taking name fan todo live watermark =>
      exact ⟨fun i hi => (h.1 i hi).grows hgrows hadds hdb hbefore,
        h.2.grows hgrows hadds hdb hbefore (Nat.le_refl _)⟩
  | catching live watermark => exact LiveOk.grows h hgrows hadds hdb hbefore (Nat.le_refl _)
  | listing live tables =>
      exact ⟨h.1.grows hgrows hadds hdb hbefore hgrows.head,
        fun table htable => (h.2 table htable).grows hgrows hdb hbefore⟩
  | scanning tables => exact fun table htable => (h table htable).grows hgrows hdb hbefore
  | idle => trivial
  | polling => trivial
  | folding => trivial
  | refused => trivial

/-- The step of an ingester. -/
theorem Inv.beside (h : Inv peers base s) (hgrows : Grows s t) (hviews : ViewInv peers base t)
    (hdb : t.db = s.db) (hbefore : t.before = s.before) (hquery : t.query = s.query) :
    Inv peers base t := by
  refine ⟨hviews, ?_, ?_⟩
  · intro i
    rw [hbefore]
    exact fun p hp => hgrows.acked i (h.known i hp)
  · rw [hquery]
    exact h.query.grows hgrows h.views.adds hdb hbefore

/-- The step of the query itself. -/
theorem Inv.within (h : Inv peers base s) {head : Nat} {live : List TableKey} {query : Query ι}
    (hquery : QueryOk peers base { s with head, live } query) :
    Inv peers base { s with head, live, query } :=
  ⟨⟨h.views.behind, h.views.adds, h.views.heads, h.views.visible⟩, h.known, by
    cases query <;> exact hquery⟩

theorem Inv.start (h : Inv peers base s) {db : String} (hs : start s db = some t) :
    Inv peers base t := by
  simp only [Querier.start] at hs
  split at hs
  · obtain rfl := Option.some.inj hs
    exact ⟨⟨h.views.behind, h.views.adds, h.views.heads, h.views.visible⟩,
      fun i => List.Subset.refl _, trivial⟩
  · cases hs

/-- The rows an ingester sends are all of its table that are not in files up to
its head. -/
theorem Inv.snapshot (h : Inv peers base s) {i : ι} (hi : i ∈ peers) {name : String}
    {p : TableKey × Row} (hp : awaited s name i p) :
    p.2 ∈ snapshotIpc (s.ingester i) (s.db, name) ∨ filedUpto base s (s.ingesterHead i) p := by
  obtain ⟨hbefore, hkey⟩ := hp
  rcases (h.views.visible i hi).present p (h.known i hbefore) with hserved | hfiled
  · left
    rw [snapshotIpc, ← hkey, List.mem_append]
    rcases hserved with hbuffer | ⟨rows, hrows, hr⟩
    · exact .inl (Engine.mem_tableRows.mpr hbuffer)
    · right
      have hheld : (s.ingester i).flushing.lookup p.1 = some rows := hrows
      rw [hheld]
      exact hr
  · obtain ⟨hbase, hlength⟩ := h.views.heads i hi
    exact .inr ⟨_, hbase, Nat.le_refl _, hlength, hfiled⟩

/-- The catalog moves forward and nothing else does; the answer is its head. -/
theorem catchUpCatalog_cases {target reached : Nat} {seen : Option Nat} {u : State ι}
    (hs : catchUpCatalog s target seen = some (u, reached)) :
    u = { s with head := reached } ∧ s.head ≤ reached := by
  simp only [catchUpCatalog] at hs
  split at hs
  · obtain ⟨rfl, rfl⟩ := Prod.mk.inj (Option.some.inj hs)
    exact ⟨rfl, Nat.le_refl _⟩
  · cases seen with
    | none =>
        obtain ⟨rfl, rfl⟩ := Prod.mk.inj (Option.some.inj hs)
        exact ⟨rfl, Nat.le_refl _⟩
    | some n =>
        simp only at hs
        split at hs
        · next hseen =>
            obtain ⟨rfl, rfl⟩ := Prod.mk.inj (Option.some.inj hs)
            exact ⟨rfl, hseen.1⟩
        · cases hs

theorem Inv.listTables (h : Inv peers base s) {seen : Option Nat}
    (hs : listTables s seen = some t) : Inv peers base t := by
  cases hq : s.query with
  | folding target =>
      simp only [Querier.listTables, hq] at hs
      obtain ⟨⟨u, reached⟩, hu, rfl⟩ := Option.map_eq_some_iff.mp hs
      obtain ⟨hhead, _⟩ := catchUpCatalog_cases hu
      rw [hhead]
      split
      · exact h.within trivial
      · refine h.within ⟨fun _ _ => trivial, ?_⟩
        exact fun taken htaken => by cases htaken
  | _ => simp [Querier.listTables, hq] at hs

theorem le_foldl_max (heads : List Nat) (watermark : Nat) :
    watermark ≤ heads.foldl max watermark ∧ ∀ head ∈ heads, head ≤ heads.foldl max watermark := by
  induction heads generalizing watermark with
  | nil => exact ⟨Nat.le_refl _, fun _ hin => by cases hin⟩
  | cons first rest ih =>
      obtain ⟨hinit, hrest⟩ := ih (max watermark first)
      have hmax : max watermark first ≤ (first :: rest).foldl max watermark := hinit
      refine ⟨Nat.le_trans (Nat.le_max_left _ _) hmax, ?_⟩
      intro head hin
      rcases List.mem_cons.mp hin with rfl | hin
      · exact Nat.le_trans (Nat.le_max_right _ _) hmax
      · exact hrest head hin

/-- Every ingester has answered: what they sent, taken together, is complete up to
the highest head. -/
theorem LiveOk.gathered {name : String} {fan : ι → Request (List Row)} {watermark : Nat}
    {live : List (String × List Row)} (hreplies : ∀ i ∈ peers, ReplyOk base s name i (fan i))
    (hlive : LiveOk peers base s live watermark)
    (hall : (peers.filterMap fun i => (fan i).answer).length = peers.length) :
    LiveOk peers base s
      (live ++ [(name, (peers.filterMap fun i => (fan i).answer).flatMap Prod.fst)])
      (((peers.filterMap fun i => (fan i).answer).map Prod.snd).foldl max watermark) := by
  obtain ⟨hinit, hheads⟩ :=
    le_foldl_max ((peers.filterMap fun i => (fan i).answer).map Prod.snd) watermark
  intro taken htaken i hi p hp
  rcases List.mem_append.mp htaken with hold | hnew
  · exact (hlive taken hold i hi p hp).imp id fun hfiled => hfiled.mono hinit
  · obtain rfl := List.mem_singleton.mp hnew
    have hsome := List.filterMap_length_eq_length.mp hall i hi
    cases hreply : fan i with
    | answered rows head =>
        have hin : (rows, head) ∈ peers.filterMap fun i => (fan i).answer :=
          List.mem_filterMap.mpr ⟨i, hi, by rw [hreply]; rfl⟩
        have hok := hreplies i hi
        rw [hreply] at hok
        refine (hok p hp).imp ?_ ?_
        · exact fun hr => List.mem_flatMap.mpr ⟨_, hin, hr⟩
        · exact fun hfiled => hfiled.mono (hheads head (List.mem_map.mpr ⟨_, hin, rfl⟩))
    | asked => simp [hreply, Request.answer] at hsome
    | read => simp [hreply, Request.answer] at hsome
    | failed => simp [hreply, Request.answer] at hsome

theorem Inv.gathered (h : Inv peers base s) (hs : gathered peers s = some t) :
    Inv peers base t := by
  cases hq : s.query with
  | taking name fan todo live watermark =>
      have hquery := h.query
      rw [hq] at hquery
      simp only [Querier.gathered, hq] at hs
      split at hs
      · obtain rfl := Option.some.inj hs
        split
        · next hall =>
            have hlive := LiveOk.gathered hquery.1 hquery.2 hall
            cases todo with
            | cons next rest => exact h.within ⟨fun _ _ => trivial, hlive⟩
            | nil =>
                dsimp only
                split
                · exact h.within hlive
                · next hhead =>
                    refine h.within ⟨?_, fun _ htable => by cases htable⟩
                    intro taken htaken i hi p hp
                    exact (hlive taken htaken i hi p hp).imp id
                      fun hfiled => hfiled.mono (Nat.not_lt.mp hhead)
        · exact h.within trivial
      · cases hs
  | _ => simp [Querier.gathered, hq] at hs

theorem Inv.caught (h : Inv peers base s) {seen : Option Nat} (hs : caught s seen = some t) :
    Inv peers base t := by
  cases hq : s.query with
  | catching live watermark =>
      have hquery := h.query
      rw [hq] at hquery
      simp only [Querier.caught, hq] at hs
      obtain ⟨⟨u, reached⟩, hu, rfl⟩ := Option.map_eq_some_iff.mp hs
      obtain ⟨rfl, _⟩ := catchUpCatalog_cases hu
      dsimp only
      split
      · exact h.within trivial
      · next hreached =>
          refine h.within ⟨?_, fun _ htable => by cases htable⟩
          intro taken htaken i hi p hp
          exact (hquery taken htaken i hi p hp).imp id
            fun hfiled => hfiled.mono (Nat.not_lt.mp hreached)
  | _ => simp [Querier.caught, hq] at hs

/-- What is not among the live rows of a table is in a file the querier lists. -/
theorem Inv.provider (h : Inv peers base s) {name : String} {rows : List Row} {schema : Schema}
    {p : Provider}
    (hrows : ∀ i ∈ peers, ∀ q, awaited s name i q → q.2 ∈ rows ∨ filedUpto base s s.head q)
    (hp : provider s name rows schema = some p) : ProviderOk peers s name p := by
  have hcomplete : ProviderOk peers s name
      (.lazyTable rows ((index s).files.filesFor (s.db, name))) := by
    intro i hi q hq
    rcases hrows i hi q hq with hin | hfiled
    · exact .inl ⟨q.2, hin, rfl, Nat.le_refl _⟩
    · obtain ⟨hbase, f, hf, hkey, hrest⟩ := hfiled.retains h.views.adds
      refine .inr ⟨f, ?_, listed_take_subset_listed h.views.adds hbase hf, hrest⟩
      exact FileIndex.mem_filesFor.mpr ⟨hf, hkey.trans hq.2⟩
  simp only [Querier.provider] at hp
  split at hp
  · next hempty =>
      obtain ⟨_, _, rfl⟩ := Option.map_eq_some_iff.mp hp
      rw [hempty.1, hempty.2] at hcomplete
      exact hcomplete
  · cases schema with
    | merged =>
        obtain rfl := Option.some.inj hp
        exact hcomplete
    | conflict =>
        obtain rfl := Option.some.inj hp
        trivial
    | missing => cases hp

theorem Inv.listFiles (h : Inv peers base s) {schema : Schema} (hs : listFiles s schema = some t) :
    Inv peers base t := by
  have hquery := h.query
  simp only [Querier.listFiles] at hs
  split at hs
  · next name rows todo tables hq =>
      rw [hq] at hquery
      obtain rfl := Option.some.inj hs
      have hrows := hquery.1 (name, rows) List.mem_cons_self
      have htables : ∀ table ∈ tables ++
          ((Querier.provider s name rows schema).toList.map fun p => (name, p)),
          ProviderOk peers s table.1 table.2 := by
        intro table htable
        rcases List.mem_append.mp htable with hold | hnew
        · exact hquery.2 table hold
        · obtain ⟨p, hp, rfl⟩ := List.mem_map.mp hnew
          exact h.provider hrows (Option.mem_toList.mp hp)
      split
      · exact h.within htables
      · refine h.within ⟨?_, htables⟩
        exact fun taken htaken => hquery.1 taken (List.mem_cons_of_mem _ htaken)
  · cases hs

theorem Inv.scan (h : Inv peers base s) {name : String} {fetched : Bool}
    (hs : scan s name fetched = some t) : Inv peers base t := by
  cases hq : s.query with
  | scanning tables =>
      have hquery := h.query
      rw [hq] at hquery
      simp only [Querier.scan, hq] at hs
      split at hs
      · next rows f files hlookup =>
          obtain ⟨before, after, htables, _⟩ := List.lookup_eq_some_iff.mp hlookup
          have hin : (name, Provider.lazyTable rows (f :: files)) ∈ tables := by
            rw [htables]
            exact List.mem_append_right _ List.mem_cons_self
          have hold := hquery _ hin
          obtain rfl := Option.some.inj hs
          refine h.within fun table htable => ?_
          obtain ⟨u, hu, rfl⟩ := List.mem_map.mp htable
          by_cases hname : u.1 = name
          · rw [if_pos hname]
            split
            · next content hobject =>
                split
                · intro i hi p hp
                  rcases hold i hi p hp with ⟨r, hr, hlater⟩ | ⟨g, hg, hlisted, r, hr, hlater⟩
                  · exact .inl ⟨r, List.mem_append_left _ hr, hlater⟩
                  · rcases List.mem_cons.mp hg with rfl | hg
                    · rw [Querier.content, hobject] at hr
                      exact .inl ⟨r, List.mem_append_right _ hr, hlater⟩
                    · exact .inr ⟨g, hg, hlisted, r, hr, hlater⟩
                · trivial
            · trivial
          · rw [if_neg hname]
            exact hquery u hu
      · cases hs
  | _ => simp [Querier.scan, hq] at hs

theorem Inv.polled (h : Inv peers base s) (hs : polled peers s = some t) : Inv peers base t := by
  cases hq : s.query with
  | polling fan =>
      simp only [Querier.polled, hq] at hs
      split at hs
      · obtain rfl := Option.some.inj hs
        exact h.within trivial
      · cases hs
  | _ => simp [Querier.polled, hq] at hs

theorem Inv.opened (peers : List ι) (objects : AbsPath → Option (List Row))
    (lengths : AbsPath → Nat) (log : List ManifestEntry) (arrivals head : Nat)
    (live : List TableKey) :
    Inv peers log.length (opened objects lengths log arrivals head live) := by
  refine ⟨⟨Nat.le_refl _, ?_, fun i _ => ⟨Nat.le_refl _, Nat.le_refl _⟩, ?_⟩,
    fun _ _ hp => (by cases hp), trivial⟩
  · intro e he
    simp [Querier.opened] at he
  · intro i _
    have hinitial : Engine.Visible Engine.initial :=
      ⟨Engine.Base.initial, fun _ _ hrows => by simp [Engine.initial] at hrows,
        fun _ _ hF => by simp [Engine.initial] at hF, fun _ hp => by cases hp⟩
    refine hinitial.elsewhere (Nat.zero_le _) ?_ ?_
    · exact fun k F hF => by simp [Engine.initial] at hF
    · rintro p ⟨f, hf, _⟩
      cases hf

theorem Inv.tail (h : Inv peers base s) {seen : Nat} (hseen : s.head ≤ seen) :
    Inv peers base { s with head := seen } := by
  refine h.beside (Grows.of_eq rfl rfl rfl rfl hseen) ?_ rfl rfl rfl
  exact ⟨h.views.behind, h.views.adds, h.views.heads, h.views.visible⟩

theorem Request.lose_cases {α : Type} {r r' : Request α} (h : r.lose = some r') :
    r' = .failed ∨ ∃ retries, r' = .asked retries := by
  cases r with
  | asked retries =>
      cases retries <;> obtain rfl := Option.some.inj h <;> simp
  | read retries value =>
      cases retries <;> obtain rfl := Option.some.inj h <;> simp
  | answered => cases h
  | failed => cases h

/-- A table of a query that ended well has nothing left to read. -/
theorem Inv.answered (h : Inv peers base s) {name : String} {rows : List Row}
    (hresult : result s name = some (.ok rows)) {i : ι} (hi : i ∈ peers) {p : TableKey × Row}
    (hp : awaited s name i p) : ∃ r ∈ rows, Supersedes r p.2 := by
  cases hq : s.query with
  | scanning tables =>
      have hquery := h.query
      rw [hq] at hquery
      simp only [result, hq] at hresult
      split at hresult
      · cases hresult
      · cases hresult
      · next found hlookup =>
          obtain rfl : found = rows := by simpa using hresult
          obtain ⟨earlier, after, htables, _⟩ := List.lookup_eq_some_iff.mp hlookup
          have hin : (name, Provider.lazyTable found []) ∈ tables := by
            rw [htables]
            exact List.mem_append_right _ List.mem_cons_self
          rcases hquery _ hin i hi p hp with hread | ⟨f, hf, _⟩
          · exact hread
          · cases hf
      · cases hresult
  | _ => simp [result, hq] at hresult

variable [DecidableEq ι]

/-- The reply of one ingester moves on. -/
theorem Inv.reply (h : Inv peers base s) {name : String} {fan : ι → Request (List Row)}
    {todo : List String} {live : List (String × List Row)} {watermark : Nat} {i : ι}
    {reply : Request (List Row)} (hq : s.query = .taking name fan todo live watermark)
    (hreply : i ∈ peers → ReplyOk base s name i (fan i) → ReplyOk base s name i reply) :
    Inv peers base
      { s with query := .taking name (Function.update fan i reply) todo live watermark } := by
  have hquery := h.query
  rw [hq] at hquery
  refine h.within ⟨?_, hquery.2⟩
  intro j hj
  by_cases hji : j = i
  · subst hji
    rw [Function.update_self]
    exact hreply hj (hquery.1 j hj)
  · rw [Function.update_of_ne hji]
    exact hquery.1 j hj

theorem Inv.readBuffers (h : Inv peers base s) {i : ι} (hs : readBuffers s i = some t) :
    Inv peers base t := by
  cases hq : s.query with
  | polling fan =>
      simp only [Querier.readBuffers, hq] at hs
      split at hs
      · obtain rfl := Option.some.inj hs
        exact h.within trivial
      · cases hs
  | taking name fan todo live watermark =>
      simp only [Querier.readBuffers, hq] at hs
      split at hs
      · obtain rfl := Option.some.inj hs
        exact h.reply hq fun hi _ p hp => h.snapshot hi hp
      · cases hs
  | _ => simp [Querier.readBuffers, hq] at hs

theorem Inv.answer (h : Inv peers base s) {i : ι} (hs : answer s i = some t) :
    Inv peers base t := by
  cases hq : s.query with
  | polling fan =>
      simp only [Querier.answer, hq] at hs
      split at hs
      · obtain rfl := Option.some.inj hs
        exact h.within trivial
      · cases hs
  | taking name fan todo live watermark =>
      simp only [Querier.answer, hq] at hs
      split at hs
      · next retries rows hread =>
          obtain rfl := Option.some.inj hs
          refine h.reply hq fun _ hold => ?_
          rw [hread] at hold
          exact hold
      · cases hs
  | _ => simp [Querier.answer, hq] at hs

theorem Inv.lose (h : Inv peers base s) {i : ι} (hs : lose s i = some t) : Inv peers base t := by
  cases hq : s.query with
  | polling fan =>
      simp only [Querier.lose, hq] at hs
      obtain ⟨reply, _, rfl⟩ := Option.map_eq_some_iff.mp hs
      exact h.within trivial
  | taking name fan todo live watermark =>
      simp only [Querier.lose, hq] at hs
      obtain ⟨reply, hlost, rfl⟩ := Option.map_eq_some_iff.mp hs
      refine h.reply hq fun _ _ => ?_
      rcases Request.lose_cases hlost with rfl | ⟨_, rfl⟩ <;> trivial
  | _ => simp [Querier.lose, hq] at hs

theorem ingest_keeps_query {i : ι} {a : Engine.Action} (hs : ingest s i a = some t) :
    t.db = s.db ∧ t.before = s.before ∧ t.query = s.query := by
  simp only [ingest] at hs
  split at hs
  · obtain ⟨e, _, rfl⟩ := Option.map_eq_some_iff.mp hs
    exact ⟨rfl, rfl, rfl⟩
  · cases hs

theorem Inv.step (h : Inv peers base s) {a : Action ι} (hok : keepsRows peers s a)
    (hs : step peers s a = some t) : Inv peers base t := by
  cases a with
  | ingest i a =>
      obtain ⟨hi, hs⟩ := (Option.ite_none_right_eq_some.mp hs)
      obtain ⟨hdb, hbefore, hquery⟩ := ingest_keeps_query hs
      exact h.beside (Grows.ingest hok hs) (h.views.ingest hi hok hs) hdb hbefore hquery
  | land i k =>
      obtain ⟨_, hs⟩ := (Option.ite_none_right_eq_some.mp hs)
      have hgrows := Grows.land hs
      have hviews := h.views.land hs
      obtain ⟨metas, rfl⟩ := land_cases hs
      exact h.beside hgrows hviews rfl rfl rfl
  | heard i k =>
      obtain ⟨hi, hs⟩ := (Option.ite_none_right_eq_some.mp hs)
      have hgrows := Grows.heard hs
      have hviews := h.views.heard hi hs
      obtain ⟨e, metas, _, _, _, rfl⟩ := heard_cases hs
      exact h.beside hgrows hviews rfl rfl rfl
  | catchUp i seen =>
      obtain ⟨_, hs⟩ := (Option.ite_none_right_eq_some.mp hs)
      have hgrows := Grows.catchUp hs
      have hviews := h.views.catchUp hs
      obtain ⟨_, hs⟩ := (Option.ite_none_right_eq_some.mp hs)
      obtain rfl := Option.some.inj hs
      exact h.beside hgrows hviews rfl rfl rfl
  | tail seen =>
      obtain ⟨hseen, hs⟩ := (Option.ite_none_right_eq_some.mp hs)
      obtain rfl := Option.some.inj hs
      exact h.tail hseen.1
  | start db => exact h.start hs
  | read i => exact h.readBuffers hs
  | answer i => exact h.answer hs
  | lose i => exact h.lose hs
  | polled => exact h.polled hs
  | listTables seen => exact h.listTables hs
  | gathered => exact h.gathered hs
  | caught seen => exact h.caught hs
  | listFiles schema => exact h.listFiles hs
  | scan name fetched => exact h.scan hs

/-- What only the start of a query sets. -/
theorem step_keeps_start {a : Action ι} (ha : ∀ db, a ≠ .start db)
    (hs : step peers s a = some t) : t.db = s.db ∧ t.before = s.before := by
  cases a with
  | ingest i a =>
      obtain ⟨_, hs⟩ := Option.ite_none_right_eq_some.mp hs
      obtain ⟨hdb, hbefore, _⟩ := ingest_keeps_query hs
      exact ⟨hdb, hbefore⟩
  | land i k =>
      obtain ⟨_, hs⟩ := Option.ite_none_right_eq_some.mp hs
      obtain ⟨metas, rfl⟩ := land_cases hs
      exact ⟨rfl, rfl⟩
  | heard i k =>
      obtain ⟨_, hs⟩ := Option.ite_none_right_eq_some.mp hs
      obtain ⟨e, metas, _, _, _, rfl⟩ := heard_cases hs
      exact ⟨rfl, rfl⟩
  | catchUp i seen =>
      obtain ⟨_, hs⟩ := Option.ite_none_right_eq_some.mp hs
      obtain ⟨_, hs⟩ := Option.ite_none_right_eq_some.mp hs
      obtain rfl := Option.some.inj hs
      exact ⟨rfl, rfl⟩
  | tail seen =>
      obtain ⟨_, hs⟩ := Option.ite_none_right_eq_some.mp hs
      obtain rfl := Option.some.inj hs
      exact ⟨rfl, rfl⟩
  | start db => exact absurd rfl (ha db)
  | read i =>
      simp only [step, Querier.readBuffers] at hs
      split at hs
      · split at hs
        · obtain rfl := Option.some.inj hs
          exact ⟨rfl, rfl⟩
        · cases hs
      · split at hs
        · obtain rfl := Option.some.inj hs
          exact ⟨rfl, rfl⟩
        · cases hs
      · cases hs
  | answer i =>
      simp only [step, Querier.answer] at hs
      split at hs
      · split at hs
        · obtain rfl := Option.some.inj hs
          exact ⟨rfl, rfl⟩
        · cases hs
      · split at hs
        · obtain rfl := Option.some.inj hs
          exact ⟨rfl, rfl⟩
        · cases hs
      · cases hs
  | lose i =>
      simp only [step, Querier.lose] at hs
      split at hs
      · obtain ⟨_, _, rfl⟩ := Option.map_eq_some_iff.mp hs
        exact ⟨rfl, rfl⟩
      · obtain ⟨_, _, rfl⟩ := Option.map_eq_some_iff.mp hs
        exact ⟨rfl, rfl⟩
      · cases hs
  | polled =>
      simp only [step, Querier.polled] at hs
      split at hs
      · obtain ⟨_, hs⟩ := Option.ite_none_right_eq_some.mp hs
        obtain rfl := Option.some.inj hs
        exact ⟨rfl, rfl⟩
      · cases hs
  | listTables seen =>
      simp only [step, Querier.listTables] at hs
      split at hs
      · obtain ⟨⟨u, reached⟩, hu, rfl⟩ := Option.map_eq_some_iff.mp hs
        obtain ⟨rfl, _⟩ := catchUpCatalog_cases hu
        split <;> exact ⟨rfl, rfl⟩
      · cases hs
  | gathered =>
      simp only [step, Querier.gathered] at hs
      split at hs
      · obtain ⟨_, hs⟩ := Option.ite_none_right_eq_some.mp hs
        obtain rfl := Option.some.inj hs
        exact ⟨rfl, rfl⟩
      · cases hs
  | caught seen =>
      simp only [step, Querier.caught] at hs
      split at hs
      · obtain ⟨⟨u, reached⟩, hu, rfl⟩ := Option.map_eq_some_iff.mp hs
        obtain ⟨rfl, _⟩ := catchUpCatalog_cases hu
        exact ⟨rfl, rfl⟩
      · cases hs
  | listFiles schema =>
      simp only [step, Querier.listFiles] at hs
      split at hs
      · obtain rfl := Option.some.inj hs
        exact ⟨rfl, rfl⟩
      · cases hs
  | scan name fetched =>
      simp only [step, Querier.scan] at hs
      split at hs
      · split at hs
        · obtain rfl := Option.some.inj hs
          exact ⟨rfl, rfl⟩
        · cases hs
      · cases hs

theorem run_keeps_start {ok : State ι → Action ι → Prop} {acts : List (Action ι)}
    (run : Run (step peers) ok s acts t) (hone : ∀ db, .start db ∉ acts) :
    t.db = s.db ∧ t.before = s.before := by
  induction run with
  | nil s => exact ⟨rfl, rfl⟩
  | cons _ hs _ ih =>
      simp only [List.mem_cons, not_or] at hone
      obtain ⟨hdb, hbefore⟩ := step_keeps_start (fun db => Ne.symm (hone db).1) hs
      obtain ⟨hdb', hbefore'⟩ := ih fun db => (hone db).2
      exact ⟨hdb'.trans hdb, hbefore'.trans hbefore⟩

end Query

/-- Two runs found by execution, with the start of a query between them. -/
private theorem exists_query (peers : List Bool) (ok : State Bool → Action Bool → Prop)
    [∀ s a, Decidable (ok s a)] (s₀ : State Bool) (earlier : List (Action Bool)) (db : String)
    (acts : List (Action Bool)) (P : State Bool → State Bool → Prop) [∀ s t, Decidable (P s t)]
    (h : (checkedRun (step peers) ok s₀ earlier).bind (fun s =>
      (step peers s (.start db)).bind fun s' =>
        (checkedRun (step peers) ok s' acts).map fun t => decide (P s t)) = some true) :
    ∃ s s' t, Run (step peers) ok s₀ earlier s ∧ step peers s (.start db) = some s' ∧
      Run (step peers) ok s' acts t ∧ P s t := by
  obtain ⟨s, hs, h⟩ := Option.bind_eq_some_iff.mp h
  obtain ⟨s', hs', h⟩ := Option.bind_eq_some_iff.mp h
  obtain ⟨t, ht, h⟩ := Option.map_eq_some_iff.mp h
  exact ⟨s, s', t, run_of_checkedRun hs, hs', run_of_checkedRun ht, of_decide_eq_true h⟩

private theorem result_of_toOption {s : State ι} {name : String} {rows : List Row}
    (h : rows ∈ (result s name).bind Except.toOption) : result s name = some (.ok rows) := by
  obtain ⟨outcome, houtcome, hrows⟩ := Option.bind_eq_some_iff.mp h
  cases outcome with
  | error e => cases hrows
  | ok found =>
      obtain rfl := Option.some.inj hrows
      exact houtcome

def emptyCluster : State Bool := opened (fun _ => none) (fun _ => 0) [] 0 0 []

/-- Every ingester reads its buffers and answers. -/
def everyReply : List (Action Bool) := [.read true, .answer true, .read false, .answer false]

/-- Both ingesters have rows of the table, and one is in the middle of a flush. -/
def midFlush : List (Action Bool) :=
  [.ingest true (.write "d" [Engine.point "t" 100] 0 1),
    .ingest false (.write "d" [Engine.point "t" 300] 0 1),
    .ingest true (.handover 0 (fun _ => []) .ok fun _ => false), .ingest true (.upload 0 1024)]

/-- The flush ends while the query is on its way. -/
def acrossFlush : List (Action Bool) :=
  everyReply ++ [.polled, .listTables none, .land true 0, .read false, .heard true 0,
    .ingest true (.release 0), .read true, .answer true, .answer false, .gathered,
    .caught (some 1), .listFiles .merged, .scan "t" true]

/-- One flush at a time on each ingester. -/
def singleFlight (s : State ι) : Action ι → Prop
  | .ingest i (.handover ..) => (s.ingester i).flights.keys = []
  | _ => True

instance (s : State ι) : (a : Action ι) → Decidable (singleFlight s a)
  | .ingest i (.handover ..) => inferInstanceAs (Decidable ((s.ingester i).flights.keys = []))
  | .ingest _ (.write ..) | .ingest _ (.recover ..) | .ingest _ (.upload ..)
  | .ingest _ (.uploadFail ..) | .ingest _ (.commit ..) | .ingest _ (.release _)
  | .ingest _ (.reclaim ..) | .ingest _ (.drop ..) | .ingest _ (.reopen ..)
  | .land .. | .heard .. | .catchUp .. | .tail _ | .start _ | .read _ | .answer _ | .lose _
  | .polled | .listTables _ | .gathered | .caught _ | .listFiles _ | .scan .. =>
      inferInstanceAs (Decidable True)

/-- One flush of an ingester, with nothing failing. -/
def flushFrom (i : Bool) (seen : Nat) : List (Action Bool) :=
  [.ingest i (.handover 0 (fun _ => []) .ok fun _ => false), .ingest i (.upload 0 1024),
    .catchUp i seen, .land i 0, .heard i 0, .ingest i (.release 0), .ingest i (.reclaim 0 9)]

/-- Two ingesters flush rows of one table, of one hour and with one latest time,
each as its first file; the files are of one length. -/
def sameObject : List (Action Bool) :=
  [.ingest true (.write "d" [Engine.point "t" 100, Engine.point "t" 200] 0 2),
    .ingest false (.write "d" [Engine.point "t" 150, Engine.point "t" 200] 0 2)] ++
    flushFrom true 0 ++ flushFrom false 1

def quietQuery : List (Action Bool) :=
  everyReply ++ [.polled, .listTables (some 2)] ++ everyReply ++
    [.gathered, .listFiles .merged, .scan "t" true, .scan "t" true]

end TimeLake.Querier
