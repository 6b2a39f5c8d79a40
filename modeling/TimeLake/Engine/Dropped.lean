import TimeLake.Engine.DropCall
import TimeLake.Library.Run

/-!
A dropped table stays dropped. Its rows can come back from six places: the
log, a flush or a tombstone rewrite under way, the catalog, the holding area and
the buffers, and the cache beside them. The drop clears the last four by
itself. For the log it relies on its flush, and a flush with nothing buffered
does not touch the log; for what is under way it relies on nothing. So the
condition is on the state in which the drop commits.
-/

namespace TimeLake.Engine.Drop

open TimeLake.Library TimeLake.Catalog TimeLake.Rows TimeLake.Store TimeLake.Cluster
open TimeLake.Ingest (LastValueCache keyPrefix seriesKey sortTags)

section Places

/-- Rows of the table, and those of other tables that the cache would file
under its prefix. -/
def mentions (key : TableKey) (k : TableKey) (tags : TagSet) : Bool :=
  k = key || (keyPrefix key.1 key.2).toList.isPrefixOf
    (seriesKey k.1 k.2 (sortTags tags.pairs)).toList

def quiet (key : TableKey) (db : String) (lines : List Line) : Prop :=
  ∀ l ∈ lines, mentions key (db, l.table) l.tags = false

section Engine

variable (e : Engine.State) (key : TableKey)

def Unlogged : Prop := ∀ g ∈ e.wal, ∀ f ∈ g.2, quiet key f.db f.lines

/-- What a flush has still to upload or to commit is not of the table. -/
def Passes : Flight → Prop
  | .uploading _ _ todo current metas _ =>
      (∀ b ∈ todo, b.key ≠ key) ∧ ∀ f ∈ current ++ metas, f.key ≠ key
  | _ => True

def Unflown : Prop := ∀ k F, e.flights.lookup k = some F → Passes key F

def Unlisted : Prop := ∀ f ∈ listed e.log, f.key ≠ key

def Unbuffered : Prop := ∀ p ∈ e.dbs, p.1 ≠ key

def Unheld : Prop := e.flushing.lookup key = none

end Engine

def Unrewritten (s : State) (key : TableKey) : Prop :=
  ∀ k files, s.rewrites.lookup k = some files → ∀ f ∈ files, f.key ≠ key

def Uncached (s : State) (key : TableKey) : Prop := s.cache.snapshot key.1 key.2 = []

/-- Nothing that a later step could bring the table back from. -/
structure Sourceless (s : State) (key : TableKey) : Prop where
  logged : Unlogged s.engine key
  flown : Unflown s.engine key
  rewritten : Unrewritten s key

/-- No row of the table, in any of the places. -/
structure Absent (s : State) (key : TableKey) : Prop where
  sources : Sourceless s key
  listed : Unlisted s.engine key
  buffered : Unbuffered s.engine key
  held : Unheld s.engine key
  cached : Uncached s key

/-- A drop of the table is under way. -/
def dropping (s : State) (key : TableKey) : Prop :=
  ∃ d stage, s.drops.lookup d = some (key, stage)

/-- After a drop began no frame names its table, accepted or not; when it
commits nothing can bring the table back; and at its end the cache has rows of
the table only if it lists it. -/
def Undisturbed (s : State) : Action → Prop
  | .engine (.write db lines _ _) | .engine (.recover db lines _) =>
      ∀ key, dropping s key ∨ key ∈ s.gone → quiet key db lines
  | .dropCommit d _ => ∀ key stage, s.drops.lookup d = some (key, stage) → Sourceless s key
  | .dropCache d _ => ∀ key stage, s.drops.lookup d = some (key, stage) →
      Uncached s key ∨ key ∈ enabledTables s.cache
  | _ => True

end Places

section Cache

theorem snapshot_disable (c : LastValueCache) (key : TableKey) :
    (c.disable key.1 key.2).snapshot key.1 key.2 = [] := by
  rw [LastValueCache.snapshot_eq_nil]
  intro e he
  simpa [LastValueCache.disable] using (List.mem_filter.mp he).2

theorem snapshot_disable_of_nil {c : LastValueCache} {key : TableKey} (k : TableKey)
    (h : c.snapshot key.1 key.2 = []) : (c.disable k.1 k.2).snapshot key.1 key.2 = [] := by
  rw [LastValueCache.snapshot_eq_nil] at h ⊢
  exact fun e he => h e (List.mem_of_mem_filter he)

theorem snapshot_observe {c : LastValueCache} {key : TableKey} {p : TableKey × Row}
    (h : c.snapshot key.1 key.2 = []) (hp : mentions key p.1 p.2.tags = false) :
    (observeRow c p).snapshot key.1 key.2 = [] := by
  rw [LastValueCache.snapshot_eq_nil] at h ⊢
  have hnew : (keyPrefix key.1 key.2).toList.isPrefixOf
      (seriesKey p.1.1 p.1.2 (sortTags p.2.tags.pairs)).toList = false := by
    simp only [mentions, Bool.or_eq_false_iff] at hp
    exact hp.2
  intro e he
  unfold observeRow LastValueCache.observe at he
  split at he
  · dsimp only at he
    split at he
    · rcases List.mem_cons.mp he with rfl | hold
      · exact hnew
      · exact h e (List.mem_of_mem_filter hold)
    · rcases List.mem_cons.mp (List.mem_of_mem_take he) with rfl | hold
      · exact hnew
      · exact h e hold
  · exact h e he

theorem snapshot_foldl {key : TableKey} {rows : List (TableKey × Row)}
    (hrows : ∀ p ∈ rows, mentions key p.1 p.2.tags = false) {c : LastValueCache}
    (h : c.snapshot key.1 key.2 = []) : (rows.foldl observeRow c).snapshot key.1 key.2 = [] := by
  induction rows generalizing c with
  | nil => exact h
  | cons p rest ih =>
      exact ih (fun q hq => hrows q (List.mem_cons_of_mem p hq))
        (snapshot_observe h (hrows p List.mem_cons_self))

theorem emptyCache_entries (cap : Nat) (tables : List TableKey) :
    (emptyCache cap tables).entries = [] := by
  have hfold : ∀ c : LastValueCache, c.entries = [] →
      (tables.foldl (fun c key => c.enable key.1 key.2) c).entries = [] := by
    induction tables with
    | nil => exact fun c hc => hc
    | cons key rest ih => exact fun c hc => ih _ hc
  exact hfold _ rfl

end Cache

section Rows

variable {key : TableKey} {db : String} {lines : List Line}

theorem mentions_applyLines (h : quiet key db lines) {defaultTs : Int} {first : Nat}
    {p : TableKey × Row} (hp : p ∈ applyLines db lines defaultTs first) :
    mentions key p.1 p.2.tags = false := by
  obtain ⟨q, hq, rfl⟩ := List.mem_map.mp hp
  obtain ⟨_, _, hl⟩ := List.mem_zipIdx (x := q.1) (i := q.2) hq
  exact h q.1 (hl ▸ List.getElem_mem _)

theorem ne_of_mentions {p : TableKey × Row} (h : mentions key p.1 p.2.tags = false) :
    p.1 ≠ key := by
  simp only [mentions, Bool.or_eq_false_iff, decide_eq_false_iff_not] at h
  exact h.1

theorem mentions_observed (h : quiet key db lines) {defaultTs : Int} {first applied : Nat} :
    ∀ p ∈ observed db lines defaultTs first applied, mentions key p.1 p.2.tags = false := by
  intro p hp
  unfold observed at hp
  split at hp
  · exact mentions_applyLines h hp
  · cases hp

end Rows

section Engine

variable {e e' : Engine.State} {key : TableKey}

/-- The frames an action appends or applies do not name the table. -/
def QuietAction (key : TableKey) : Engine.Action → Prop
  | .write db lines _ _ | .recover db lines _ => quiet key db lines
  | _ => True

/-- The engine has no row of the table but in the holding area. -/
structure Cleared (e : Engine.State) (key : TableKey) : Prop where
  logged : Unlogged e key
  flown : Unflown e key
  listed : Unlisted e key
  buffered : Unbuffered e key

theorem unbuffered_append (h : Unbuffered e key) {db : String} {lines : List Line}
    (hquiet : quiet key db lines) (defaultTs : Int) (first applied : Nat) :
    ∀ p ∈ e.dbs ++ (applyLines db lines defaultTs first).take applied, p.1 ≠ key := by
  intro p hp
  rcases List.mem_append.mp hp with hold | hnew
  · exact h p hold
  · exact ne_of_mentions (mentions_applyLines hquiet (List.mem_of_mem_take hnew))

theorem snapshots_ne (h : Unbuffered e key) (columns : TableKey → List String) :
    ∀ b ∈ snapshots e.dbs columns, b.key ≠ key := by
  intro b hb
  obtain ⟨k, hk, rfl⟩ := List.mem_map.mp hb
  obtain ⟨p, hp, rfl⟩ := List.mem_map.mp (List.mem_dedup.mp hk)
  exact h p hp

theorem Unflown.insert (h : Unflown e key) {k : Nat} {F : Flight} (hF : Passes key F) :
    ∀ j G, (e.flights.insert k F).lookup j = some G → Passes key G := by
  intro j G hG
  by_cases hj : j = k
  · subst hj
    rw [AList.lookup_insert] at hG
    exact Option.some.inj hG ▸ hF
  · rw [AList.lookup_insert_ne hj] at hG
    exact h j G hG

theorem Unflown.erase (h : Unflown e key) {k : Nat} :
    ∀ j G, (e.flights.erase k).lookup j = some G → Passes key G := by
  intro j G hG
  by_cases hj : j = k
  · subst hj
    rw [AList.lookup_erase] at hG
    cases hG
  · rw [AList.lookup_erase_ne hj] at hG
    exact h j G hG

theorem Passes.upload {seq size : Nat} {F F' : Flight} {f : FileMeta} {rows : List Row}
    (h : Uploads seq size F f rows F') (hF : Passes key F) : Passes key F' := by
  cases h with
  | piece gen failed k columns rows partition piece next pieces todo current metas done =>
      obtain ⟨htodo, hfiles⟩ := hF
      have hk : k ≠ key := htodo _ List.mem_cons_self
      refine ⟨?_, ?_⟩
      · intro b hb
        rcases List.mem_cons.mp hb with rfl | hrest
        · exact hk
        · exact htodo b (List.mem_cons_of_mem _ hrest)
      · intro g hg
        simp only [List.mem_append, List.mem_singleton] at hg
        rcases hg with (hg | rfl) | hg
        · exact hfiles g (List.mem_append_left _ hg)
        · exact hk
        · exact hfiles g (List.mem_append_right _ hg)
  | lastPiece gen failed k columns rows partition piece todo current metas done =>
      obtain ⟨htodo, hfiles⟩ := hF
      have hk : k ≠ key := htodo _ List.mem_cons_self
      refine ⟨fun b hb => htodo b (List.mem_cons_of_mem _ hb), ?_⟩
      intro g hg
      simp only [List.nil_append, List.mem_append, List.mem_singleton] at hg
      rcases hg with hg | hg | rfl
      · exact hfiles g (List.mem_append_right _ hg)
      · exact hfiles g (List.mem_append_left _ hg)
      · exact hk

theorem unlogged_append {wal : List Generation} (h : ∀ g ∈ wal, ∀ f ∈ g.2, quiet key f.db f.lines)
    {file : Nat} {frame : Frame} (hframe : quiet key frame.db frame.lines) :
    ∀ g ∈ appendFrame wal file frame, ∀ f ∈ g.2, quiet key f.db f.lines := by
  intro g hg f hf
  obtain ⟨g', hg', rfl⟩ := List.mem_map.mp hg
  split at hf
  · rcases List.mem_append.mp hf with hold | hnew
    · exact h g' hg' f hold
    · exact List.mem_singleton.mp hnew ▸ hframe
  · exact h g' hg' f hf

theorem replay_ne {wal : List Generation} (h : ∀ g ∈ wal, ∀ f ∈ g.2, quiet key f.db f.lines)
    (applied : Frame → Nat) : ∀ p ∈ replay wal applied, p.1 ≠ key := by
  intro p hp
  obtain ⟨f, hf, hrow⟩ := List.mem_flatMap.mp hp
  obtain ⟨g, hg, hfg⟩ := List.mem_flatMap.mp hf
  exact ne_of_mentions (mentions_applyLines (h g hg f hfg) (List.mem_of_mem_take hrow))

theorem unlogged_openWal {wal : List Generation}
    (h : ∀ g ∈ wal, ∀ f ∈ g.2, quiet key f.db f.lines) (encrypted : Bool) :
    ∀ g ∈ (openWal wal encrypted).1, ∀ f ∈ g.2, quiet key f.db f.lines := by
  intro g hg f hf
  have hmem : f ∈ (openWal wal encrypted).1.flatMap Prod.snd := List.mem_flatMap.mpr ⟨g, hg, hf⟩
  rw [openWal_frames] at hmem
  obtain ⟨g', hg', hf'⟩ := List.mem_flatMap.mp hmem
  exact h g' hg' f hf'

/-- A handover takes the buffers, and its flight what was in them. -/
theorem handover_cases {k : Nat} {columns : TableKey → List String} {rotation : Rotation}
    {unreadable : TableKey → Bool} (h : handover e k columns rotation unreadable = some e') :
    e'.dbs = [] ∧ e'.log = e.log ∧ (∀ g ∈ e'.wal, g ∈ e.wal ∨ g.2 = []) ∧
      ∃ held, (∀ b ∈ held, b ∈ snapshots e.dbs columns) ∧
        e'.flushing = heldBatches held e.flushing ∧
        (e'.flights = e.flights ∨ ∃ gen failed,
          e'.flights = e.flights.insert k (.uploading gen failed held [] [] [])) := by
  unfold handover at h
  split at h
  · cases rotation with
    | syncFailed =>
        obtain rfl := Option.some.inj h
        exact ⟨rfl, rfl, fun g hg => .inl hg, [], by simp, rfl, .inl rfl⟩
    | createFailed =>
        obtain rfl := Option.some.inj h
        exact ⟨rfl, rfl, fun g hg => .inl hg, [], by simp, rfl, .inl rfl⟩
    | ok =>
        obtain rfl := Option.some.inj h
        refine ⟨rfl, rfl, ?_, _, fun b hb => List.mem_of_mem_filter hb, rfl, .inr ⟨_, _, rfl⟩⟩
        intro g hg
        rcases List.mem_append.mp hg with hold | hnew
        · exact .inl hold
        · exact .inr (List.mem_singleton.mp hnew ▸ rfl)
  · cases h

theorem Cleared.handover (h : Cleared e key) {k : Nat} {columns : TableKey → List String}
    {rotation : Rotation} {unreadable : TableKey → Bool}
    (hs : Engine.handover e k columns rotation unreadable = some e') : Cleared e' key := by
  obtain ⟨hdbs, hlog, hwal, held, hheld, _, hflights⟩ := handover_cases hs
  refine ⟨?_, ?_, ?_, ?_⟩
  · intro g hg f hf
    rcases hwal g hg with hold | hnil
    · exact h.logged g hold f hf
    · rw [hnil] at hf
      cases hf
  · unfold Unflown
    rcases hflights with hsame | ⟨gen, failed, hnew⟩
    · rw [hsame]
      exact h.flown
    · rw [hnew]
      refine h.flown.insert ⟨?_, by simp⟩
      exact fun b hb => snapshots_ne h.buffered columns b (hheld b hb)
  · unfold Unlisted
    rw [hlog]
    exact h.listed
  · unfold Unbuffered
    rw [hdbs]
    simp

theorem Cleared.commit (h : Cleared e key) {k : Nat} {result : CommitResult}
    (hs : Engine.commit e k result = some e') : Cleared e' key := by
  have hadd : ∀ gen failed current metas done,
      e.flights.lookup k = some (.uploading gen failed [] current metas done) →
        ∀ f ∈ Catalog.listed (addEntry e metas), f.key ≠ key := by
    intro gen failed current metas done hF f hf
    rcases mem_listed_addEntry.mp hf with hold | hnew
    · exact h.listed f hold
    · exact (h.flown k _ hF).2 f (List.mem_append_right _ hnew)
  simp only [Engine.commit] at hs
  split at hs
  · next gen failed current metas done hF =>
      cases result with
      | ok =>
          obtain rfl := Option.some.inj hs
          exact ⟨h.logged, h.flown.insert trivial, hadd _ _ _ _ _ hF, h.buffered⟩
      | failed landed =>
          obtain rfl := Option.some.inj hs
          refine ⟨h.logged, h.flown.erase, ?_, h.buffered⟩
          cases landed with
          | false => exact h.listed
          | true => exact hadd _ _ _ _ _ hF
  · cases hs

/-- No action that leaves the table unnamed brings it back. -/
theorem Cleared.step (h : Cleared e key) {a : Engine.Action} (hquiet : QuietAction key a)
    (hs : Engine.step e a = some e') : Cleared e' key := by
  cases a with
  | write db lines now applied =>
      obtain rfl := Option.some.inj hs
      exact ⟨unlogged_append h.logged hquiet, h.flown, h.listed,
        unbuffered_append h.buffered hquiet now e.arrivals applied⟩
  | recover db lines applied =>
      obtain rfl := Option.some.inj hs
      exact ⟨h.logged, h.flown, h.listed,
        unbuffered_append h.buffered hquiet 0 e.arrivals applied⟩
  | handover k columns rotation unreadable => exact h.handover hs
  | upload k size =>
      obtain ⟨F, f, rows, F', hF, hup, _, rfl⟩ := upload_cases hs
      exact ⟨h.logged, h.flown.insert ((h.flown k F hF).upload hup), h.listed, h.buffered⟩
  | uploadFail k bumped =>
      simp only [Engine.step, uploadFail] at hs
      split at hs
      · next gen failed b todo current metas done hF =>
          obtain rfl := Option.some.inj hs
          obtain ⟨htodo, hfiles⟩ := h.flown k _ hF
          refine ⟨h.logged, h.flown.insert ⟨?_, ?_⟩, h.listed, h.buffered⟩
          · exact fun c hc => htodo c (List.mem_cons_of_mem _ hc)
          · exact fun g hg => hfiles g (List.mem_append_right _ (by simpa using hg))
      · cases hs
  | commit k result => exact h.commit hs
  | release k =>
      simp only [Engine.step, release] at hs
      split at hs
      · obtain rfl := Option.some.inj hs
        exact ⟨h.logged, h.flown.insert trivial, h.listed, h.buffered⟩
      · cases hs
  | reclaim k deleted =>
      obtain ⟨_, _, _, _, _, rfl⟩ := reclaim_cases hs
      exact ⟨fun g hg => h.logged g (List.mem_of_mem_filter hg), h.flown.erase, h.listed,
        h.buffered⟩
  | drop k stage =>
      obtain rfl := Option.some.inj hs
      cases stage with
      | catalog =>
          refine ⟨h.logged, h.flown, ?_, h.buffered⟩
          exact fun f hf => h.listed f (mem_listed_dropEntry.mp hf).1
      | held => exact ⟨h.logged, h.flown, h.listed, h.buffered⟩
      | buffers =>
          exact ⟨h.logged, h.flown, h.listed, fun p hp => h.buffered p (List.mem_of_mem_filter hp)⟩
  | reopen encrypted applied =>
      obtain rfl := Option.some.inj hs
      exact ⟨unlogged_openWal h.logged encrypted, fun k F hF => (by simp [reopen] at hF), h.listed,
        replay_ne h.logged applied⟩

theorem lookup_heldBatches {held : List FlushTable} (hheld : ∀ b ∈ held, b.key ≠ key)
    (flushing : AssocMap TableKey (List Row)) :
    (heldBatches held flushing).lookup key = flushing.lookup key := by
  unfold heldBatches
  induction held generalizing flushing with
  | nil => rfl
  | cons b rest ih =>
      rw [List.foldl_cons, ih fun c hc => hheld c (List.mem_cons_of_mem b hc)]
      exact AList.lookup_insert_ne (Ne.symm (hheld b List.mem_cons_self))

theorem lookup_released {done : List FlushTable} {flushing : AssocMap TableKey (List Row)}
    (h : flushing.lookup key = none) :
    (done.foldl (fun m b => m.erase b.key) flushing).lookup key = none := by
  induction done generalizing flushing with
  | nil => exact h
  | cons b rest ih =>
      apply ih
      by_cases hb : key = b.key
      · rw [hb]
        exact AList.lookup_erase _ _
      · rw [AList.lookup_erase_ne hb]
        exact h

theorem Unheld.step (hbuffered : Unbuffered e key) (h : Unheld e key) {a : Engine.Action}
    (hs : Engine.step e a = some e') : Unheld e' key := by
  unfold Unheld at h ⊢
  cases a with
  | write db lines now applied =>
      obtain rfl := Option.some.inj hs
      exact h
  | recover db lines applied =>
      obtain rfl := Option.some.inj hs
      exact h
  | handover k columns rotation unreadable =>
      obtain ⟨_, _, _, held, hheld, hflushing, _⟩ := handover_cases hs
      rw [hflushing, lookup_heldBatches, h]
      exact fun b hb => snapshots_ne hbuffered columns b (hheld b hb)
  | upload k size =>
      obtain ⟨_, _, _, _, _, _, _, rfl⟩ := upload_cases hs
      exact h
  | uploadFail k bumped =>
      simp only [Engine.step, uploadFail] at hs
      split at hs
      · obtain rfl := Option.some.inj hs
        exact h
      · cases hs
  | commit k result =>
      simp only [Engine.step, Engine.commit] at hs
      split at hs
      · cases result <;> obtain rfl := Option.some.inj hs <;> exact h
      · cases hs
  | release k =>
      simp only [Engine.step, release] at hs
      split at hs
      · obtain rfl := Option.some.inj hs
        exact lookup_released h
      · cases hs
  | reclaim k deleted =>
      obtain ⟨_, _, _, _, _, rfl⟩ := reclaim_cases hs
      exact h
  | drop k stage =>
      obtain rfl := Option.some.inj hs
      cases stage with
      | catalog => exact h
      | held =>
          by_cases hk : key = k
          · subst hk
            exact AList.lookup_erase _ _
          · simpa [dropTable, AList.lookup_erase_ne hk] using h
      | buffers => exact h
  | reopen encrypted applied =>
      obtain rfl := Option.some.inj hs
      exact AList.lookup_empty _

/-- Between its start and its commit a drop only needs the buffers to stay free
of its table; a restart ends it. -/
theorem Unbuffered.step (h : Unbuffered e key) {a : Engine.Action} (hquiet : QuietAction key a)
    (hopen : ∀ encrypted applied, a ≠ .reopen encrypted applied)
    (hs : Engine.step e a = some e') : Unbuffered e' key := by
  cases a with
  | write db lines now applied =>
      obtain rfl := Option.some.inj hs
      exact unbuffered_append h hquiet now e.arrivals applied
  | recover db lines applied =>
      obtain rfl := Option.some.inj hs
      exact unbuffered_append h hquiet 0 e.arrivals applied
  | handover k columns rotation unreadable =>
      obtain ⟨hdbs, _⟩ := handover_cases hs
      unfold Unbuffered
      rw [hdbs]
      simp
  | upload k size =>
      obtain ⟨_, _, _, _, _, _, _, rfl⟩ := upload_cases hs
      exact h
  | uploadFail k bumped =>
      simp only [Engine.step, uploadFail] at hs
      split at hs
      · obtain rfl := Option.some.inj hs
        exact h
      · cases hs
  | commit k result =>
      simp only [Engine.step, Engine.commit] at hs
      split at hs
      · cases result <;> obtain rfl := Option.some.inj hs <;> exact h
      · cases hs
  | release k =>
      simp only [Engine.step, release] at hs
      split at hs
      · obtain rfl := Option.some.inj hs
        exact h
      · cases hs
  | reclaim k deleted =>
      obtain ⟨_, _, _, _, _, rfl⟩ := reclaim_cases hs
      exact h
  | drop k stage =>
      obtain rfl := Option.some.inj hs
      cases stage with
      | catalog => exact h
      | held => exact h
      | buffers => exact fun p hp => h p (List.mem_of_mem_filter hp)
  | reopen encrypted applied => exact absurd rfl (hopen encrypted applied)

end Engine

section Effects

/-- The catalog or a tombstone pass has a file of the table. -/
def Known (s : State) (key : TableKey) : Prop :=
  (∃ g ∈ listed s.engine.log, g.key = key) ∨
    ∃ k files, s.rewrites.lookup k = some files ∧ ∃ g ∈ files, g.key = key

/-- An action of the engine that brings no row, or none at all. -/
def Acts (e e' : Engine.State) : Prop :=
  e' = e ∨ ∃ a, (∀ key, QuietAction key a) ∧ (∀ encrypted applied, a ≠ .reopen encrypted applied) ∧
    Engine.step e a = some e'

/-- The way of one drop, from stage to stage. -/
inductive Advances (e : Engine.State) (key : TableKey) : Stage → Engine.State → Stage → Prop where
  | idle (h : e.dbs = []) : Advances e key .begun e .flushed
  | flush {e' : Engine.State} {k : Nat} {columns : TableKey → List String}
      {unreadable : TableKey → Bool} (h : handover e k columns .ok unreadable = some e') :
      Advances e key .begun e' (.waiting k)
  | reclaim {e' : Engine.State} {k deleted : Nat} (h : reclaim e k deleted = some e') :
      Advances e key (.waiting k) e' .flushed
  | commit : Advances e key .flushed (dropTable e key .catalog) .committed
  | held : Advances e key .committed (dropTable e key .held) .released
  | buffers : Advances e key .released (dropTable e key .buffers) .purged

/-- All that an allowed step can do. -/
inductive Effect (s : State) : State → Prop where
  | act {a : Engine.Action} {e : Engine.State}
      (hquiet : ∀ key, dropping s key ∨ key ∈ s.gone → QuietAction key a)
      (hopen : ∀ encrypted applied, a ≠ .reopen encrypted applied)
      (h : Engine.step s.engine a = some e) :
      Effect s { s with engine := e, cache := cacheAfter s a }
  | reopen (encrypted : Bool) (applied : Frame → Nat) :
      Effect s { s with
        engine := Engine.reopen s.engine encrypted applied
        cache := cacheAfter s (.reopen encrypted applied)
        rewrites := ∅
        drops := ∅ }
  | optIn (c : LastValueCache) (doc : List TableKey)
      (h : ∀ key, Uncached s key → c.snapshot key.1 key.2 = []) :
      Effect s { s with cache := c, cacheDoc := doc }
  | maintain (log : List ManifestEntry) (rewrites : AssocMap Nat (List FileMeta))
      (hlog : ∀ f ∈ listed log, Known s f.key)
      (hrewrites : ∀ k files, rewrites.lookup k = some files → ∀ f ∈ files, Known s f.key) :
      Effect s { s with engine := { s.engine with log := log }, rewrites := rewrites }
  | begin (d : Nat) (key : TableKey) : Effect s (s.setDrop d key .begun)
  | advance {d : Nat} {key : TableKey} {prev next : Stage} {e : Engine.State}
      (hd : s.drops.lookup d = some (key, prev)) (h : Advances s.engine key prev e next)
      (hsource : next = .committed → Sourceless s key) :
      Effect s ({ s with engine := e }.setDrop d key next)
  | quit (d : Nat) {e : Engine.State} (h : Acts s.engine e) :
      Effect s ({ s with engine := e }.endDrop d)
  | finish {d : Nat} {key : TableKey} (c : LastValueCache) (doc : List TableKey)
      (hd : s.drops.lookup d = some (key, .purged)) (hcache : c.snapshot key.1 key.2 = [])
      (h : ∀ k, Uncached s k → c.snapshot k.1 k.2 = []) :
      Effect s { s with
        cache := c, cacheDoc := doc, drops := s.drops.erase d, gone := key :: s.gone }

variable {s t : State}

theorem known_of_rewrites {k : Nat} {files : List FileMeta} {f : FileMeta}
    (h : s.rewrites.lookup k = some files) (hf : f ∈ files) : Known s f.key :=
  .inr ⟨k, files, h, f, hf, rfl⟩

theorem known_of_listed {f : FileMeta} (h : f ∈ listed s.engine.log) : Known s f.key :=
  .inl ⟨f, h, rfl⟩

theorem known_of_insert {k : Nat} {rest : List FileMeta} (hrest : ∀ f ∈ rest, Known s f.key) :
    ∀ j files, (s.rewrites.insert k rest).lookup j = some files → ∀ f ∈ files, Known s f.key := by
  intro j files hfiles f hf
  by_cases hj : j = k
  · subst hj
    rw [AList.lookup_insert] at hfiles
    exact hrest f (Option.some.inj hfiles ▸ hf)
  · rw [AList.lookup_insert_ne hj] at hfiles
    exact known_of_rewrites hfiles hf

theorem known_of_commitEntry {args : CommitArgs} (hadd : ∀ f ∈ args.addFiles, Known s f.key) :
    ∀ f ∈ listed (s.commitEntry args).engine.log, Known s f.key := by
  intro f hf
  obtain ⟨hold, hnew⟩ | hnew := (mem_listed_snoc.mp hf).1
  · exact known_of_listed hold
  · exact hadd f hnew

theorem effect_of_maintain {args : CommitArgs} (hadd : ∀ f ∈ args.addFiles, Known s f.key) :
    Effect s (s.commitEntry args) :=
  .maintain _ s.rewrites (known_of_commitEntry hadd)
    fun _ _ hfiles _ hf => known_of_rewrites hfiles hf

theorem effect_of_rewrites {k : Nat} {rest : List FileMeta} (hrest : ∀ f ∈ rest, Known s f.key) :
    Effect s { s with rewrites := s.rewrites.insert k rest } :=
  .maintain s.engine.log _ (fun _ hf => known_of_listed hf) (known_of_insert hrest)

theorem effect_of_engine {a : Engine.Action} (hok : Undisturbed s (.engine a))
    (hs : engineStep s a = some t) : Effect s t := by
  have hquiet : ∀ key, dropping s key ∨ key ∈ s.gone → QuietAction key a := by
    intro key hkey
    cases a with
    | write db lines now applied => exact hok key hkey
    | recover db lines applied => exact hok key hkey
    | _ => trivial
  unfold engineStep at hs
  split at hs
  · cases hs
  · obtain ⟨e, he, rfl⟩ := Option.map_eq_some_iff.mp hs
    obtain rfl := Option.some.inj he
    exact .reopen _ _
  · next hopen =>
      obtain ⟨e, he, rfl⟩ := Option.map_eq_some_iff.mp hs
      exact .act hquiet hopen he

theorem Acts.handover {e e' : Engine.State} {k : Nat} {columns : TableKey → List String}
    {rotation : Rotation} {unreadable : TableKey → Bool}
    (h : Engine.handover e k columns rotation unreadable = some e') : Acts e e' :=
  .inr ⟨.handover k columns rotation unreadable, fun _ => trivial, by simp, h⟩

theorem Acts.reclaim {e e' : Engine.State} {k deleted : Nat}
    (h : Engine.reclaim e k deleted = some e') : Acts e e' :=
  .inr ⟨.reclaim k deleted, fun _ => trivial, by simp, h⟩

theorem Acts.drop (e : Engine.State) (key : TableKey) (stage : DropStage) :
    Acts e (dropTable e key stage) :=
  .inr ⟨.drop key stage, fun _ => trivial, by simp, rfl⟩

theorem effect_of_dropFlush {d k : Nat} {columns : TableKey → List String} {rotation : Rotation}
    {unreadable : TableKey → Bool} (hs : dropFlush s d k columns rotation unreadable = some t) :
    Effect s t := by
  unfold dropFlush at hs
  split at hs
  · next key hd =>
      obtain ⟨e, he, rfl⟩ := Option.map_eq_some_iff.mp hs
      cases rotation with
      | ok => exact .advance hd (.flush he) (by simp)
      | syncFailed | createFailed =>
          exact .quit d (.handover he)
  · cases hs

theorem effect_of_dropReclaim {d deleted : Nat} (hs : dropReclaim s d deleted = some t) :
    Effect s t := by
  unfold dropReclaim at hs
  split at hs
  · next key k hd =>
      split at hs
      · obtain ⟨e, he, rfl⟩ := Option.map_eq_some_iff.mp hs
        split
        · exact .advance hd (.reclaim he) (by simp)
        · exact .quit d (.reclaim he)
      · cases hs
  · cases hs

theorem effect_of_dropCommit {d : Nat} {result : CommitResult}
    (hok : Undisturbed s (.dropCommit d result)) (hs : dropCommit s d result = some t) :
    Effect s t := by
  unfold dropCommit at hs
  split at hs
  · next key hd =>
      split at hs
      · obtain rfl := Option.some.inj hs
        exact .advance hd .commit fun _ => hok key _ hd
      · obtain rfl := Option.some.inj hs
        exact .quit d (.drop s.engine key .catalog)
      · obtain rfl := Option.some.inj hs
        exact .quit d (.inl rfl)
  · cases hs

theorem effect_of_dropCache {d : Nat} {stored : Bool} (hok : Undisturbed s (.dropCache d stored))
    (hs : dropCache s d stored = some t) : Effect s t := by
  unfold dropCache at hs
  split at hs
  · next key hd =>
      obtain rfl := Option.some.inj hs
      by_cases hlisted : (enabledTables s.cache).contains key
      · rw [if_pos hlisted]
        exact .finish _ _ hd (snapshot_disable s.cache key) fun k hk =>
            snapshot_disable_of_nil key hk
      · rw [if_neg hlisted]
        refine .finish _ _ hd ?_ fun k hk => hk
        exact (hok key _ hd).resolve_right fun h => hlisted (List.contains_iff_mem.mpr h)
  · cases hs

theorem effect_of_step {a : Action} (hok : Undisturbed s a) (hs : step s a = some t) :
    Effect s t := by
  cases a with
  | engine a => exact effect_of_engine hok hs
  | enable k stored =>
      obtain rfl := Option.some.inj hs
      exact .optIn _ _ fun key hkey => hkey
  | disable k stored =>
      obtain rfl := Option.some.inj hs
      exact .optIn _ _ fun key hkey => snapshot_disable_of_nil k hkey
  | compact k inputs output =>
      simp only [step, compact] at hs
      split at hs
      · next hin =>
          obtain rfl := Option.some.inj hs
          refine effect_of_maintain fun f hf => ?_
          obtain ⟨g, hg⟩ := List.exists_mem_of_ne_nil _ hin.1
          obtain rfl := List.mem_singleton.mp hf
          rw [hin.2.2, ← (hin.2.1 g hg).2]
          exact known_of_listed (hin.2.1 g hg).1
      · cases hs
  | expire paths | tombstone t =>
      obtain rfl := Option.some.inj hs
      exact effect_of_maintain fun f hf => absurd hf List.not_mem_nil
  | rewriteStart k =>
      simp only [step, rewriteStart] at hs
      split at hs
      · obtain rfl := Option.some.inj hs
        exact effect_of_rewrites fun f hf => known_of_listed hf
      · cases hs
  | rewriteSkip k =>
      simp only [step, rewriteSkip] at hs
      split at hs
      · next hfiles =>
          obtain rfl := Option.some.inj hs
          exact effect_of_rewrites fun f hf => known_of_rewrites hfiles (List.mem_cons_of_mem _ hf)
      · cases hs
  | rewriteCommit k output =>
      simp only [step, rewriteCommit] at hs
      split at hs
      · next f rest hfiles =>
          split at hs
          · next hkeys =>
              obtain rfl := Option.some.inj hs
              refine .maintain _ _ (known_of_commitEntry fun o ho => ?_)
                  (known_of_insert fun g hg => ?_)
              · rw [hkeys o (Option.mem_toList.mp ho)]
                exact known_of_rewrites hfiles List.mem_cons_self
              · exact known_of_rewrites hfiles (List.mem_cons_of_mem _ hg)
          · cases hs
      · cases hs
  | dropStart d k =>
      simp only [step, dropStart] at hs
      split at hs
      · obtain rfl := Option.some.inj hs
        exact .begin d k
      · cases hs
  | dropIdle d =>
      simp only [step, dropIdle] at hs
      split at hs
      · next key hd =>
          split at hs
          · next hempty =>
              obtain rfl := Option.some.inj hs
              exact .advance hd (.idle hempty) (by simp)
          · cases hs
      · cases hs
  | dropFlush d k columns rotation unreadable => exact effect_of_dropFlush hs
  | dropReclaim d deleted => exact effect_of_dropReclaim hs
  | dropCommit d result => exact effect_of_dropCommit hok hs
  | dropHeld d =>
      simp only [step, dropHeld] at hs
      split at hs
      · next key hd =>
          obtain rfl := Option.some.inj hs
          exact .advance hd .held (by simp)
      · cases hs
  | dropBuffers d =>
      simp only [step, dropBuffers] at hs
      split at hs
      · next key hd =>
          obtain rfl := Option.some.inj hs
          exact .advance hd .buffers (by simp)
      · cases hs
  | dropCache d stored => exact effect_of_dropCache hok hs
  | dropFail d =>
      obtain rfl := Option.some.inj hs
      exact .quit d (.inl rfl)

end Effects

section Invariant

variable {s t : State} {key : TableKey}

/-- No row of the table but in the holding area and the cache. -/
structure Settled (s : State) (key : TableKey) : Prop where
  cleared : Cleared s.engine key
  rewritten : Unrewritten s key

theorem Settled.unknown (h : Settled s key) : ¬ Known s key := by
  rintro (⟨g, hg, hkey⟩ | ⟨k, files, hfiles, g, hg, hkey⟩)
  · exact h.cleared.listed g hg hkey
  · exact h.rewritten k files hfiles g hg hkey

theorem Cleared.acts {e e' : Engine.State} (h : Cleared e key) (hacts : Acts e e') :
    Cleared e' key := by
  obtain rfl | ⟨a, hquiet, _, hs⟩ := hacts
  · exact h
  · exact h.step (hquiet key) hs

theorem Unbuffered.acts {e e' : Engine.State} (h : Unbuffered e key) (hacts : Acts e e') :
    Unbuffered e' key := by
  obtain rfl | ⟨a, hquiet, hopen, hs⟩ := hacts
  · exact h
  · exact h.step (hquiet key) hopen hs

theorem Unheld.acts {e e' : Engine.State} (hbuffered : Unbuffered e key) (h : Unheld e key)
    (hacts : Acts e e') : Unheld e' key := by
  obtain rfl | ⟨a, _, _, hs⟩ := hacts
  · exact h
  · exact Unheld.step hbuffered h hs

theorem Advances.acts {e e' : Engine.State} {k : TableKey} {prev next : Stage}
    (h : Advances e k prev e' next) : Acts e e' := by
  cases h with
  | idle _ => exact .inl rfl
  | flush h => exact .handover h
  | reclaim h => exact .reclaim h
  | commit | held | buffers => exact .drop e k _

theorem Settled.effect (hkey : dropping s key ∨ key ∈ s.gone) (h : Settled s key)
    (heffect : Effect s t) : Settled t key := by
  cases heffect with
  | act hquiet _ hs => exact ⟨h.cleared.step (hquiet key hkey) hs, h.rewritten⟩
  | reopen encrypted applied =>
      refine ⟨h.cleared.step (a := .reopen encrypted applied) trivial rfl, ?_⟩
      exact fun k files hfiles => (by simp at hfiles)
  | optIn _ _ _ => exact ⟨h.cleared, h.rewritten⟩
  | maintain log rewrites hlog hrewrites =>
      refine ⟨⟨h.cleared.logged, h.cleared.flown, ?_, h.cleared.buffered⟩, ?_⟩
      · exact fun f hf hf' => h.unknown (hf' ▸ hlog f hf)
      · exact fun k files hfiles f hf hf' => h.unknown (hf' ▸ hrewrites k files hfiles f hf)
  | begin _ _ => exact ⟨h.cleared, h.rewritten⟩
  | advance _ hadvance _ => exact ⟨h.cleared.acts hadvance.acts, h.rewritten⟩
  | quit _ hacts => exact ⟨h.cleared.acts hacts, h.rewritten⟩
  | finish _ _ _ _ _ => exact ⟨h.cleared, h.rewritten⟩

theorem Unheld.effect (hbuffered : Unbuffered s.engine key) (h : Unheld s.engine key)
    (heffect : Effect s t) : Unheld t.engine key := by
  cases heffect with
  | act _ _ hs => exact Unheld.step hbuffered h hs
  | reopen encrypted applied => exact AList.lookup_empty _
  | optIn _ _ _ | maintain _ _ _ _ | begin _ _ | finish _ _ _ _ _ => exact h
  | advance _ hadvance _ => exact Unheld.acts hbuffered h hadvance.acts
  | quit _ hacts => exact Unheld.acts hbuffered h hacts

theorem Unbuffered.effect (hdrop : dropping s key) (h : Unbuffered s.engine key)
    (hkept : dropping t key) (heffect : Effect s t) : Unbuffered t.engine key := by
  cases heffect with
  | act hquiet hopen hs => exact h.step (hquiet key (.inl hdrop)) hopen hs
  | reopen encrypted applied =>
      obtain ⟨d, stage, hd⟩ := hkept
      cases hd
  | optIn _ _ _ | maintain _ _ _ _ | begin _ _ | finish _ _ _ _ _ => exact h
  | advance _ hadvance _ => exact h.acts hadvance.acts
  | quit _ hacts => exact h.acts hacts

theorem Uncached.cacheAfter {a : Engine.Action} (h : Uncached s key)
    (hlogged : Unlogged s.engine key) (hquiet : QuietAction key a) :
    (cacheAfter s a).snapshot key.1 key.2 = [] := by
  cases a with
  | write db lines now applied => exact snapshot_foldl (mentions_observed hquiet) h
  | recover db lines applied => exact snapshot_foldl (mentions_observed hquiet) h
  | reopen encrypted applied =>
      refine snapshot_foldl ?_ ?_
      · intro p hp
        obtain ⟨f, hf, hrow⟩ := List.mem_flatMap.mp hp
        obtain ⟨g, hg, hfg⟩ := List.mem_flatMap.mp hf
        exact mentions_observed (hlogged g hg f hfg) p hrow
      · rw [LastValueCache.snapshot_eq_nil, emptyCache_entries]
        simp
  | _ => exact h

theorem Uncached.effect (hkey : dropping s key ∨ key ∈ s.gone) (h : Uncached s key)
    (hlogged : Unlogged s.engine key) (heffect : Effect s t) : Uncached t key := by
  cases heffect with
  | act hquiet _ _ => exact h.cacheAfter hlogged (hquiet key hkey)
  | reopen encrypted applied =>
      exact h.cacheAfter (a := .reopen encrypted applied) hlogged trivial
  | optIn _ _ hcache => exact hcache key h
  | maintain _ _ _ _ | begin _ _ | advance _ _ _ | quit _ _ => exact h
  | finish _ _ _ _ hcache => exact hcache key h

/-- What a drop has seen to at each stage. -/
def Reached (s : State) (key : TableKey) : Stage → Prop
  | .begun => True
  | .waiting _ | .flushed => Unbuffered s.engine key
  | .committed => Settled s key
  | .released | .purged => Settled s key ∧ Unheld s.engine key

structure Inv (s : State) : Prop where
  reached : ∀ d key stage, s.drops.lookup d = some (key, stage) → Reached s key stage
  settled : ∀ key ∈ s.gone, Settled s key
  held : ∀ key ∈ s.gone, Unheld s.engine key
  cached : ∀ key ∈ s.gone, Uncached s key

theorem Reached.effect {stage : Stage} (hdrop : dropping s key) (h : Reached s key stage)
    (hkept : dropping t key) (heffect : Effect s t) : Reached t key stage := by
  cases stage with
  | begun => trivial
  | waiting k => exact Unbuffered.effect hdrop h hkept heffect
  | flushed => exact Unbuffered.effect hdrop h hkept heffect
  | committed => exact Settled.effect (.inl hdrop) h heffect
  | released | purged =>
      exact ⟨h.1.effect (.inl hdrop) heffect, h.2.effect h.1.cleared.buffered heffect⟩

/-- One stage on. Only the commit uses its condition. -/
theorem Reached.advance {prev next : Stage} {e : Engine.State}
    {drops : AssocMap Nat (TableKey × Stage)}
    (h : Reached { s with engine := e, drops := drops } key prev) (hs : Reached s key prev)
    (hadvance : Advances s.engine key prev e next)
    (hsource : next = .committed → Sourceless s key) :
    Reached { s with engine := e, drops := drops } key next := by
  cases hadvance with
  | idle hempty =>
      intro p hp
      rw [hempty] at hp
      cases hp
  | flush hflush =>
      intro p hp
      rw [(handover_cases hflush).1] at hp
      cases hp
  | reclaim _ => exact h
  | commit =>
      obtain ⟨hlogged, hflown, hrewritten⟩ := hsource rfl
      refine ⟨⟨hlogged, hflown, ?_, hs⟩, hrewritten⟩
      exact fun f hf => (mem_listed_dropEntry.mp hf).2
  | held => exact ⟨h, AList.lookup_erase _ _⟩
  | buffers => exact h

theorem drops_of_effect {d : Nat} {stage : Stage} (heffect : Effect s t)
    (hd : t.drops.lookup d = some (key, stage)) :
    s.drops.lookup d = some (key, stage) ∨ stage = .begun ∨
      ∃ prev e, s.drops.lookup d = some (key, prev) ∧ Advances s.engine key prev e stage ∧
        (stage = .committed → Sourceless s key) ∧
          t = { s with engine := e }.setDrop d key stage := by
  have herase : ∀ d', (s.drops.erase d').lookup d = some (key, stage) →
      s.drops.lookup d = some (key, stage) := by
    intro d' h
    by_cases hne : d = d'
    · rw [hne, AList.lookup_erase] at h
      cases h
    · rwa [AList.lookup_erase_ne hne] at h
  cases heffect with
  | act _ _ _ | optIn _ _ _ | maintain _ _ _ _ => exact .inl hd
  | reopen _ _ => cases hd
  | begin d' k =>
      by_cases hne : d = d'
      · rw [hne, State.setDrop, AList.lookup_insert] at hd
        cases hd
        exact .inr (.inl rfl)
      · rw [State.setDrop, AList.lookup_insert_ne hne] at hd
        exact .inl hd
  | advance hold hadvance hsource =>
      rename_i d' k prev next e
      by_cases hne : d = d'
      · rw [hne, State.setDrop, AList.lookup_insert] at hd
        cases hd
        exact .inr (.inr ⟨prev, e, hne ▸ hold, hadvance, hsource, hne ▸ rfl⟩)
      · rw [State.setDrop, AList.lookup_insert_ne hne] at hd
        exact .inl hd
  | quit _ _ => exact .inl (herase _ hd)
  | finish _ _ _ _ _ => exact .inl (herase _ hd)

theorem gone_of_effect (heffect : Effect s t) (hkey : key ∈ t.gone) :
    key ∈ s.gone ∨ ((∃ d, s.drops.lookup d = some (key, .purged)) ∧ Uncached t key) := by
  cases heffect with
  | finish _ _ hd hcache _ =>
      rcases List.mem_cons.mp hkey with rfl | hold
      · exact .inr ⟨⟨_, hd⟩, hcache⟩
      · exact .inl hold
  | _ => exact .inl hkey

theorem Inv.effect (h : Inv s) (heffect : Effect s t) : Inv t := by
  have hended : ∀ key ∈ t.gone, (dropping s key ∨ key ∈ s.gone) ∧ Settled s key ∧
      Unheld s.engine key := by
    intro key hkey
    rcases gone_of_effect heffect hkey with hold | ⟨⟨d, hd⟩, _⟩
    · exact ⟨.inr hold, h.settled key hold, h.held key hold⟩
    · exact ⟨.inl ⟨d, _, hd⟩, h.reached d key _ hd⟩
  refine ⟨?_, ?_, ?_, ?_⟩
  · intro d key stage hd
    rcases drops_of_effect heffect hd with hold | rfl | ⟨prev, e, hold, hadvance, hsource, rfl⟩
    · exact (h.reached d key stage hold).effect ⟨d, _, hold⟩ ⟨d, _, hd⟩ heffect
    · trivial
    · have hprev := h.reached d key prev hold
      exact Reached.advance (s := s) (hprev.effect ⟨d, _, hold⟩ ⟨d, _, hd⟩ heffect) hprev hadvance
        hsource
  · intro key hkey
    obtain ⟨hnamed, hsettled, _⟩ := hended key hkey
    exact hsettled.effect hnamed heffect
  · intro key hkey
    obtain ⟨_, hsettled, hheld⟩ := hended key hkey
    exact hheld.effect hsettled.cleared.buffered heffect
  · intro key hkey
    rcases gone_of_effect heffect hkey with hold | ⟨_, hcached⟩
    · exact (h.cached key hold).effect (.inr hold) (h.settled key hold).cleared.logged heffect
    · exact hcached

theorem Inv.initial (cap : Nat) : Inv (initial cap) :=
  ⟨fun d key stage hd => (by cases hd), by simp [Drop.initial], by simp [Drop.initial],
    by simp [Drop.initial]⟩

theorem Inv.run {cap : Nat} {acts : List Action}
    (run : Run step Undisturbed (Drop.initial cap) acts s) : Inv s :=
  run.invariant (fun _ _ _ h hok hs => h.effect (effect_of_step hok hs)) (.initial cap)

/-- In every run whose drops commit with no row of their table in the log and
none under way, a table whose drop has returned has no row left in any of the
places, and that through every restart. -/
theorem dropped_stays_dropped {cap : Nat} {acts : List Action} {s : State}
    (run : Run step Undisturbed (Drop.initial cap) acts s) :
    ∀ key ∈ s.gone, Absent s key := by
  intro key hkey
  have h : Inv s := .run run
  have hsettled := h.settled key hkey
  exact ⟨⟨hsettled.cleared.logged, hsettled.cleared.flown, hsettled.rewritten⟩,
    hsettled.cleared.listed, hsettled.cleared.buffered, h.held key hkey, h.cached key hkey⟩

end Invariant

section Runs

/-- No frame at all once a drop has begun. -/
def writesEnd (s : State) : Action → Bool
  | .engine (.write _ _ _ _) | .engine (.recover _ _ _) =>
      s.drops.entries.isEmpty && s.gone.isEmpty
  | _ => true

/-- Besides, a drop commits with nothing in the log and nothing under way, and
ends with its table listed by the cache. -/
def calm (s : State) : Action → Bool
  | .dropCommit _ _ =>
      s.engine.wal.all (fun g => g.2.isEmpty) && s.engine.flights.entries.isEmpty &&
        s.rewrites.entries.isEmpty
  | .dropCache d _ =>
      match s.drops.lookup d with
      | some (key, _) => (enabledTables s.cache).contains key
      | none => true
  | a => writesEnd s a

theorem lookup_of_isEmpty {κ ν : Type*} [DecidableEq κ] {m : AssocMap κ ν}
    (h : m.entries.isEmpty = true) (k : κ) : m.lookup k = none := by
  have hentries : m.entries = [] := List.isEmpty_iff.mp h
  rw [AList.lookup, hentries]
  rfl

theorem undisturbed_of_writesEnd {s : State} {db : String} {lines : List Line}
    (h : (s.drops.entries.isEmpty && s.gone.isEmpty) = true) :
    ∀ key, dropping s key ∨ key ∈ s.gone → quiet key db lines := by
  rw [Bool.and_eq_true] at h
  rintro key (⟨d, stage, hd⟩ | hgone)
  · rw [lookup_of_isEmpty h.1 d] at hd
    cases hd
  · rw [List.isEmpty_iff.mp h.2] at hgone
    cases hgone

theorem undisturbed_of_calm {s : State} {a : Action} (h : calm s a = true) : Undisturbed s a := by
  cases a with
  | engine a =>
      cases a with
      | write _ _ _ _ | recover _ _ _ => exact undisturbed_of_writesEnd h
      | _ => trivial
  | dropCommit d result =>
      simp only [calm, Bool.and_eq_true, List.all_eq_true] at h
      obtain ⟨⟨hwal, hflights⟩, hrewrites⟩ := h
      intro key stage _
      refine ⟨?_, ?_, ?_⟩
      · intro g hg f hf
        rw [List.isEmpty_iff.mp (hwal g hg)] at hf
        cases hf
      · intro k F hF
        rw [lookup_of_isEmpty hflights k] at hF
        cases hF
      · intro k files hfiles
        rw [lookup_of_isEmpty hrewrites k] at hfiles
        cases hfiles
  | dropCache d stored =>
      intro key stage hd
      simp only [calm, hd] at h
      exact .inr (List.contains_iff_mem.mp h)
  | _ => trivial

def reading (table : String) (time : Int) : Line :=
  ⟨table, some time, untagged, [("v", .int 1)]⟩

/-- A table with a cache is written, dropped with a flush of its own, and the
engine restarts. -/
def flushedAndDropped : List Action :=
  [.enable ("d", "t") true, .engine (.write "d" [reading "t" 100] 0 1), .dropStart 0 ("d", "t"),
    .dropFlush 0 0 (fun _ => []) .ok (fun _ => false), .engine (.upload 0 0),
    .engine (.commit 0 .ok), .engine (.release 0), .dropReclaim 0 9, .dropCommit 0 .ok,
    .dropHeld 0, .dropBuffers 0, .dropCache 0 true,
    .engine (.reopen false fun f => f.lines.length)]

theorem flushedAndDropped_absent : ∃ s, Run step Undisturbed (initial 8) flushedAndDropped s ∧
    ("d", "t") ∈ s.gone ∧ s.engine.log.length = 2 ∧ Absent s ("d", "t") := by
  obtain ⟨s, run, hgone, hlog⟩ := exists_run_with step (fun s a => calm s a = true) (initial 8)
    flushedAndDropped (fun s => ("d", "t") ∈ s.gone ∧ s.engine.log.length = 2) (by decide +kernel)
  have hrun := run.mono fun _ _ h => undisturbed_of_calm h
  exact ⟨s, hrun, hgone, hlog, dropped_stays_dropped hrun _ hgone⟩

/-- Of two tables that are flushed together one fails, so the log is kept. The
other is dropped while nothing is buffered, and the engine restarts. -/
def droppedWhileLogged : List Action :=
  [.engine (.write "d" [reading "t" 100, reading "u" 100] 0 2),
    .engine (.handover 0 (fun _ => []) .ok fun _ => false), .engine (.upload 0 0),
    .engine (.uploadFail 0 false), .engine (.commit 0 .ok), .engine (.release 0),
    .engine (.reclaim 0 9), .dropStart 0 ("d", "t"), .dropIdle 0, .dropCommit 0 .ok,
    .dropHeld 0, .dropBuffers 0, .dropCache 0 true,
    .engine (.reopen false fun f => f.lines.length)]

theorem droppedWhileLogged_returns : ∃ s,
    Run step (fun s a => writesEnd s a = true) (initial 8) droppedWhileLogged s ∧
      ("d", "t") ∈ s.gone ∧ ("d", "t") ∈ s.engine.dbs.map Prod.fst :=
  exists_run_with _ _ _ _ _ (by decide +kernel)

end Runs

end TimeLake.Engine.Drop
