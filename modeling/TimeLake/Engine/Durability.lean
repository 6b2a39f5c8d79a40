import TimeLake.Engine.Flights

/-!
Acknowledged rows survive a crash. A row is safe in a listed file or in a frame
of the log, and a reclaim moves it from the second to the first; it asks only
whether its own flush failed for a table, so one after another flush that left a
table without its file takes the only copy of that table's rows.
-/

namespace TimeLake.Engine

open TimeLake.Library TimeLake.Catalog TimeLake.Rows TimeLake.Store TimeLake.Cluster

/-- A generation still there has the row in an acknowledged frame. -/
def onDisk (s : State) (p : TableKey × Row) : Prop :=
  ∃ g ∈ s.wal, ∃ f ∈ g.2, f.acked ∧ p ∈ f.rows f.now

instance (s : State) (p : TableKey × Row) : Decidable (onDisk s p) :=
  inferInstanceAs (Decidable (∃ g ∈ s.wal, _))

def Flight.failed : Flight → Bool
  | .uploading _ failed .. => failed
  | .committed _ failed _ => failed
  | .released _ failed => failed

/-- A replay gives an acknowledged frame all its rows, at the times they were
acknowledged with: `open` stamps a line without a time with 0. -/
def replaysWhole (applied : Frame → Nat) (f : Frame) : Prop :=
  f.acked → f.lines.length ≤ applied f ∧ ∀ line ∈ f.lines, line.time ≠ none

instance (applied : Frame → Nat) (f : Frame) : Decidable (replaysWhole applied f) :=
  inferInstanceAs (Decidable (_ → _))

/-- One flush after the other, and no reclaim in a process that has left a table
without its file. -/
def orderly (s : State) : Action → Prop
  | .write .. => True
  | .recover .. => False
  | .handover .. => AssocMap.values s.flights = []
  | .upload .. => True
  | .uploadFail .. => True
  | .commit .. => True
  | .release _ => True
  | .reclaim k _ => ∀ F ∈ s.flights.lookup k, F.failed = false → s.failures = false
  | .drop .. => False
  | .reopen _ applied => ∀ g ∈ s.wal, ∀ f ∈ g.2, replaysWhole applied f

instance (s : State) : (a : Action) → Decidable (orderly s a)
  | .write .. => inferInstanceAs (Decidable True)
  | .recover .. => inferInstanceAs (Decidable False)
  | .handover .. => decidable_of_iff ((AssocMap.values s.flights).isEmpty = true)
      List.isEmpty_iff
  | .upload .. => inferInstanceAs (Decidable True)
  | .uploadFail .. => inferInstanceAs (Decidable True)
  | .commit .. => inferInstanceAs (Decidable True)
  | .release _ => inferInstanceAs (Decidable True)
  | .reclaim k _ =>
      inferInstanceAs (Decidable (∀ F ∈ s.flights.lookup k, F.failed = false → s.failures = false))
  | .drop .. => inferInstanceAs (Decidable False)
  | .reopen _ applied =>
      inferInstanceAs (Decidable (∀ g ∈ s.wal, ∀ f ∈ g.2, replaysWhole applied f))

def reclaimsSafely (s : State) (a : Action) : Prop := replacesWhole s a ∧ orderly s a

instance (s : State) (a : Action) : Decidable (reclaimsSafely s a) :=
  inferInstanceAs (Decidable (_ ∧ _))

/-- A row of generation `g` on its way to a file: in a flight, or in the buffers
while every flight sealed an earlier generation. -/
def Underway (s : State) (g : Nat) (p : TableKey × Row) : Prop :=
  (∃ k F, s.flights.lookup k = some F ∧ F.carries p) ∨
    (p ∈ s.dbs ∧ ∀ k F, s.flights.lookup k = some F → F.sealedGen < g)

structure Durable (s : State) : Prop where
  base : Base s
  single : ∀ j k F G, s.flights.lookup j = some F → s.flights.lookup k = some G → j = k
  durable : ∀ p ∈ s.acked, filed s p ∨ onDisk s p
  settled : s.failures = false → ∀ g ∈ s.wal, ∀ f ∈ g.2, f.acked → ∀ p ∈ f.rows f.now,
    filed s p ∨ Underway s g.1 p

section Durable

variable {s t : State}

theorem mem_appendFrame {wal : List Generation} {file : Nat} {f : Frame} {g : Generation}
    {x : Frame} (hg : g ∈ appendFrame wal file f) (hx : x ∈ g.2) :
    (∃ g' ∈ wal, g'.1 = g.1 ∧ x ∈ g'.2) ∨ (g.1 = file ∧ x = f) := by
  obtain ⟨g', hg', rfl⟩ := List.mem_map.mp hg
  by_cases hfile : g'.1 = file
  · rw [if_pos hfile] at hx ⊢
    rcases List.mem_append.mp hx with hold | hnew
    · exact .inl ⟨g', hg', rfl, hold⟩
    · exact .inr ⟨hfile, List.mem_singleton.mp hnew⟩
  · rw [if_neg hfile] at hx ⊢
    exact .inl ⟨g', hg', rfl, hx⟩

theorem appendFrame_keeps {wal : List Generation} (file : Nat) (f : Frame) {g : Generation}
    {x : Frame} (hg : g ∈ wal) (hx : x ∈ g.2) : ∃ g' ∈ appendFrame wal file f, x ∈ g'.2 := by
  refine ⟨_, List.mem_map.mpr ⟨g, hg, rfl⟩, ?_⟩
  split
  · exact List.mem_append_left _ hx
  · exact hx

/-- A flight moves on: what it carried it still carries or it is in a file. -/
theorem Underway.move {k g : Nat} {F F' : Flight} {p : TableKey × Row} (h : Underway s g p)
    (hF : s.flights.lookup k = some F) (hflights : t.flights = s.flights.insert k F')
    (hdbs : t.dbs = s.dbs) (hgen : F'.sealedGen = F.sealedGen)
    (hcarries : F.carries p → filed t p ∨ F'.carries p) : filed t p ∨ Underway t g p := by
  rcases h with ⟨j, G, hG, hcarried⟩ | ⟨hbuffer, hearlier⟩
  · by_cases hj : j = k
    · subst hj
      obtain rfl := Option.some.inj (hF.symm.trans hG)
      refine (hcarries hcarried).imp_right fun hnext => .inl ⟨j, F', ?_, hnext⟩
      rw [hflights, AList.lookup_insert]
    · refine .inr (.inl ⟨j, G, ?_, hcarried⟩)
      rw [hflights, AList.lookup_insert_ne hj]
      exact hG
  · refine .inr (.inr ⟨by rw [hdbs]; exact hbuffer, ?_⟩)
    intro j G hG
    rw [hflights] at hG
    rcases AssocMap.of_lookup_insert hG with ⟨_, rfl⟩ | ⟨_, hold⟩
    · rw [hgen]
      exact hearlier k F hF
    · exact hearlier j G hold

/-- A flight that carries nothing more ends. -/
theorem Underway.finish {k g : Nat} {F : Flight} {p : TableKey × Row} (h : Underway s g p)
    (hF : s.flights.lookup k = some F) (hflights : t.flights = s.flights.erase k)
    (hdbs : t.dbs = s.dbs) (hcarries : F.carries p → filed t p) : filed t p ∨ Underway t g p := by
  rcases h with ⟨j, G, hG, hcarried⟩ | ⟨hbuffer, hearlier⟩
  · by_cases hj : j = k
    · subst hj
      obtain rfl := Option.some.inj (hF.symm.trans hG)
      exact .inl (hcarries hcarried)
    · refine .inr (.inl ⟨j, G, ?_, hcarried⟩)
      rw [hflights, AList.lookup_erase_ne hj]
      exact hG
  · refine .inr (.inr ⟨by rw [hdbs]; exact hbuffer, ?_⟩)
    intro j G hG
    rw [hflights] at hG
    exact hearlier j G (AssocMap.of_lookup_erase hG).2

theorem carries_nothing {F : Flight} {p : TableKey × Row} (h : F.batches = []) :
    ¬ F.carries p := by
  rintro ⟨b, hb, _⟩
  rw [h] at hb
  cases hb

theorem Uploads.carries {seq size : Nat} {F F' : Flight} {f : FileMeta} {rows : List Row}
    {p : TableKey × Row} (h : Uploads seq size F f rows F') (hp : F.carries p) : F'.carries p := by
  obtain ⟨b, hb, hkey, hrow⟩ := hp
  cases h with
  | piece gen failed key columns batch partition piece next pieces todo current metas done =>
      rcases List.mem_append.mp hb with hb | hb
      · rcases List.mem_cons.mp hb with rfl | hb
        · exact ⟨_, List.mem_append_left _ List.mem_cons_self, hkey, hrow⟩
        · exact ⟨b, List.mem_append_left _ (List.mem_cons_of_mem _ hb), hkey, hrow⟩
      · exact ⟨b, List.mem_append_right _ hb, hkey, hrow⟩
  | lastPiece gen failed key columns batch partition piece todo current metas done =>
      rcases List.mem_append.mp hb with hb | hb
      · rcases List.mem_cons.mp hb with rfl | hb
        · refine ⟨⟨key, columns, batch, []⟩, ?_, hkey, hrow⟩
          exact List.mem_append_right _ (List.mem_append_right _ List.mem_cons_self)
        · exact ⟨b, List.mem_append_left _ hb, hkey, hrow⟩
      · exact ⟨b, List.mem_append_right _ (List.mem_append_left _ hb), hkey, hrow⟩

theorem Durable.write (h : Durable s) (db : String) (lines : List Line) (now : Int)
    (applied : Nat) : Durable (write s db lines now applied) := by
  refine ⟨h.base.write db lines now applied, h.single, ?_, ?_⟩
  · intro p hp
    have hold : p ∈ s.acked → filed (Engine.write s db lines now applied) p ∨
        onDisk (Engine.write s db lines now applied) p := by
      intro hp
      rcases h.durable p hp with hfiled | ⟨g, hg, f, hf, hrest⟩
      · exact .inl hfiled
      · obtain ⟨g', hg', hf'⟩ := appendFrame_keeps s.handle.file
          ⟨db, lines, s.arrivals, now, lines.length ≤ applied⟩ hg hf
        exact .inr ⟨g', hg', f, hf', hrest⟩
    by_cases hacked : lines.length ≤ applied
    · simp only [Engine.write, if_pos hacked] at hp
      rcases List.mem_append.mp hp with hp | hnew
      · exact hold hp
      · obtain ⟨older, current, hwal, holder⟩ := h.base.shape
        refine .inr ⟨(s.handle.file, current ++
          [⟨db, lines, s.arrivals, now, lines.length ≤ applied⟩]), ?_,
          ⟨db, lines, s.arrivals, now, lines.length ≤ applied⟩, ?_, by simpa using hacked, hnew⟩
        · simp only [Engine.write, hwal, appendFrame_last current _ holder]
          exact List.mem_append_right _ List.mem_cons_self
        · exact List.mem_append_right _ List.mem_cons_self
    · simp only [Engine.write, if_neg hacked] at hp
      exact hold hp
  · intro hfailures g hg f hf hacked p hp
    rcases mem_appendFrame hg hf with ⟨g', hg', hgen, hf'⟩ | ⟨hgen, rfl⟩
    · refine (h.settled hfailures g' hg' f hf' hacked p hp).imp id fun hunder => ?_
      rw [← hgen]
      exact hunder.imp id fun hbuffer => ⟨List.mem_append_left _ hbuffer.1, hbuffer.2⟩
    · refine .inr (.inr ⟨List.mem_append_right _ ?_, ?_⟩)
      · have hlength : (applyLines db lines now s.arrivals).length ≤ applied := by
          simpa [applyLines] using hacked
        rw [List.take_of_length_le hlength]
        exact hp
      · intro k F hF
        rw [hgen]
        exact (h.base.flight k F hF).earlier

/-- A step that leaves the log of frames and the acknowledged rows alone. -/
theorem Durable.frame (h : Durable s) {a : Action} (hwhole : replacesWhole s a)
    (hdrop : ∀ key stage, a ≠ .drop key stage) (hs : step s a = some t) (hwal : t.wal = s.wal)
    (hacked : t.acked = s.acked)
    (hsingle : ∀ j k F G, t.flights.lookup j = some F → t.flights.lookup k = some G → j = k)
    (hsettled : t.failures = false → s.failures = false ∧
      ∀ g p, Underway s g p → filed t p ∨ Underway t g p) : Durable t := by
  have hfiled : ∀ p, filed s p → filed t p :=
    fun p hp => filed_step hp hwhole (hdrop _ _) hs
  refine ⟨h.base.step hs, hsingle, ?_, ?_⟩
  · rw [hacked]
    intro p hp
    refine (h.durable p hp).imp (hfiled p) ?_
    rintro ⟨g, hg, hrest⟩
    exact ⟨g, by rw [hwal]; exact hg, hrest⟩
  · intro hfailures g hg f hf hback p hp
    rw [hwal] at hg
    obtain ⟨hbefore, hunder⟩ := hsettled hfailures
    rcases h.settled hbefore g hg f hf hback p hp with hin | hway
    · exact .inl (hfiled p hin)
    · exact hunder g.1 p hway

theorem single_insert {k : Nat} {F F' : Flight}
    (h : ∀ i j F G, s.flights.lookup i = some F → s.flights.lookup j = some G → i = j)
    (hF : s.flights.lookup k = some F) :
    ∀ i j G G', (s.flights.insert k F').lookup i = some G →
      (s.flights.insert k F').lookup j = some G' → i = j := by
  have hslot : ∀ i G, (s.flights.insert k F').lookup i = some G → i = k := by
    intro i G hG
    rcases AssocMap.of_lookup_insert hG with ⟨hi, _⟩ | ⟨_, hold⟩
    · exact hi
    · exact h i k G F hold hF
  exact fun i j G G' hG hG' => (hslot i G hG).trans (hslot j G' hG').symm

theorem single_erase {k : Nat}
    (h : ∀ i j F G, s.flights.lookup i = some F → s.flights.lookup j = some G → i = j) :
    ∀ i j G G', (s.flights.erase k).lookup i = some G →
      (s.flights.erase k).lookup j = some G' → i = j :=
  fun i j G G' hG hG' =>
    h i j G G' (AssocMap.of_lookup_erase hG).2 (AssocMap.of_lookup_erase hG').2

theorem no_flight (h : AssocMap.values s.flights = []) (k : Nat) (F : Flight) :
    s.flights.lookup k ≠ some F := by
  intro hF
  have hin : F ∈ AssocMap.values s.flights := AssocMap.mem_values.mpr ⟨k, hF⟩
  rw [h] at hin
  cases hin

theorem Durable.handover (h : Durable s) {k : Nat} {columns : TableKey → List String}
    {rotation : Rotation} {unreadable : TableKey → Bool} (hempty : AssocMap.values s.flights = [])
    (hs : handover s k columns rotation unreadable = some t) : Durable t := by
  have hbase := h.base.handover hs
  simp only [Engine.handover] at hs
  split at hs
  · cases rotation with
    | syncFailed =>
        obtain rfl := Option.some.inj hs
        exact ⟨hbase, h.single, h.durable, fun hfailures => by cases hfailures⟩
    | createFailed =>
        obtain rfl := Option.some.inj hs
        exact ⟨hbase, h.single, h.durable, fun hfailures => by cases hfailures⟩
    | ok =>
        obtain rfl := Option.some.inj hs
        refine ⟨hbase, ?_, ?_, ?_⟩
        · intro i j F G hF hG
          rcases AssocMap.of_lookup_insert hF with ⟨hi, _⟩ | ⟨_, hold⟩
          · rcases AssocMap.of_lookup_insert hG with ⟨hj, _⟩ | ⟨_, hold⟩
            · exact hi.trans hj.symm
            · exact absurd hold (no_flight hempty j G)
          · exact absurd hold (no_flight hempty i F)
        · intro p hp
          refine (h.durable p hp).imp id ?_
          rintro ⟨g, hg, hrest⟩
          exact ⟨g, List.mem_append_left _ hg, hrest⟩
        · intro hfailures g hg f hf hacked p hp
          obtain ⟨hbefore, hreadable⟩ := Bool.or_eq_false_iff.mp hfailures
          rcases List.mem_append.mp hg with hg | hg
          · rcases h.settled hbefore g hg f hf hacked p hp with hin | ⟨j, F, hF, _⟩ | ⟨hbuffer, _⟩
            · exact .inl hin
            · exact absurd hF (no_flight hempty j F)
            · obtain ⟨b, hb, hkey, hrow⟩ := mem_snapshots columns hbuffer
              have hheld : unreadable b.key = false := by
                simpa using List.any_eq_false.mp hreadable b hb
              refine .inr (.inl ⟨k, _, AList.lookup_insert _, b, ?_, hkey, hrow⟩)
              exact List.mem_append_left _ (List.mem_filter.mpr ⟨hb, by simp [hheld]⟩)
          · rw [List.mem_singleton.mp hg] at hf
            cases hf
  · cases hs

theorem Durable.upload (h : Durable s) {k size : Nat} (hwhole : replacesWhole s (.upload k size))
    (hs : step s (.upload k size) = some t) : Durable t := by
  obtain ⟨F, f, rows, F', hF, hup, _, rfl⟩ := upload_cases hs
  refine h.frame hwhole (fun _ _ h => by cases h) hs rfl rfl (single_insert h.single hF) ?_
  intro hfailures
  refine ⟨hfailures, fun g p hway => ?_⟩
  exact hway.move hF rfl rfl hup.sealedGen_eq fun hcarried => .inr (hup.carries hcarried)

theorem Durable.uploadFail (h : Durable s) {k : Nat} {bumped : Bool}
    (hs : step s (.uploadFail k bumped) = some t) : Durable t := by
  have hwhole : replacesWhole s (.uploadFail k bumped) := fun _ hput => by cases hput
  have hstep := hs
  simp only [step, Engine.uploadFail] at hstep
  split at hstep
  · next gen failed table todo current metas done hF =>
      obtain rfl := Option.some.inj hstep
      exact h.frame hwhole (fun _ _ h => by cases h) hs rfl rfl (single_insert h.single hF)
        fun hfailures => by cases hfailures
  · cases hstep

theorem Durable.commit (h : Durable s) {k : Nat} {result : CommitResult}
    (hs : step s (.commit k result) = some t) : Durable t := by
  have hwhole : replacesWhole s (.commit k result) := fun _ hput => by cases hput
  have hstep := hs
  simp only [step, Engine.commit] at hstep
  split at hstep
  · next gen failed current metas done hF =>
      have hok := h.base.flight k _ hF
      cases result with
      | ok =>
          obtain rfl := Option.some.inj hstep
          refine h.frame hwhole (fun _ _ h => by cases h) hs rfl rfl (single_insert h.single hF) ?_
          intro hfailures
          refine ⟨hfailures, fun g p hway => ?_⟩
          exact hway.move hF rfl rfl rfl fun hcarried => .inl (hok.commits rfl rfl hcarried)
      | failed landed =>
          obtain rfl := Option.some.inj hstep
          refine h.frame hwhole (fun _ _ h => by cases h) hs rfl rfl (single_erase h.single) ?_
          intro hfailures
          obtain ⟨hbefore, hlanded⟩ := Bool.or_eq_false_iff.mp hfailures
          have hlanded : landed = true := by simpa using hlanded
          subst hlanded
          refine ⟨hbefore, fun g p hway => ?_⟩
          exact hway.finish hF rfl rfl (hok.commits rfl rfl)
  · cases hstep

theorem Durable.release (h : Durable s) {k : Nat} (hs : step s (.release k) = some t) :
    Durable t := by
  have hwhole : replacesWhole s (.release k) := fun _ hput => by cases hput
  have hstep := hs
  simp only [step, Engine.release] at hstep
  split at hstep
  · next gen failed done hF =>
      obtain rfl := Option.some.inj hstep
      refine h.frame hwhole (fun _ _ h => by cases h) hs rfl rfl (single_insert h.single hF) ?_
      intro hfailures
      refine ⟨hfailures, fun g p hway => ?_⟩
      exact hway.move hF rfl rfl rfl fun hcarried => absurd hcarried (carries_nothing rfl)
  · cases hstep

/-- Every acknowledged row of a generation that a reclaim takes is in a file. -/
theorem Durable.reclaims (h : Durable s) {k deleted : Nat}
    (hsafe : orderly s (.reclaim k deleted)) (hs : reclaim s k deleted = some t)
    {g : Generation} (hg : g ∈ s.wal) (hgone : g ∉ t.wal) {f : Frame} (hf : f ∈ g.2)
    (hacked : f.acked) {p : TableKey × Row} (hp : p ∈ f.rows f.now) : filed s p := by
  obtain ⟨gen, failed, gone, hF, hvictims, rfl⟩ := reclaim_cases hs
  have hin : g.1 ∈ gone := by
    by_contra hnot
    exact hgone (List.mem_filter.mpr ⟨hg, by simpa using hnot⟩)
  obtain ⟨rfl, hle⟩ := hvictims g.1 hin
  have hfailures : s.failures = false := hsafe _ hF rfl
  rcases h.settled hfailures g hg f hf hacked p hp with hin | ⟨j, G, hG, hcarried⟩ | ⟨_, hearlier⟩
  · exact hin
  · obtain rfl := h.single j k G _ hG hF
    obtain rfl := Option.some.inj (hF.symm.trans hG)
    exact absurd hcarried (carries_nothing rfl)
  · exact absurd (hearlier k _ hF) (Nat.not_lt.mpr hle)

theorem Durable.reclaim (h : Durable s) {k deleted : Nat}
    (hsafe : orderly s (.reclaim k deleted)) (hs : reclaim s k deleted = some t) :
    Durable t := by
  have hbase := h.base.reclaim hs
  have hreclaims := fun g hg hgone f hf => h.reclaims hsafe hs (g := g) (f := f) hg hgone hf
  obtain ⟨gen, failed, gone, hF, _, rfl⟩ := reclaim_cases hs
  refine ⟨hbase, single_erase h.single, ?_, ?_⟩
  · intro p hp
    rcases h.durable p hp with hin | ⟨g, hg, f, hf, hacked, hrow⟩
    · exact .inl hin
    · by_cases hkept : g ∈ s.wal.filter fun g => !gone.contains g.1
      · exact .inr ⟨g, hkept, f, hf, hacked, hrow⟩
      · exact .inl (hreclaims g hg hkept f hf hacked hrow)
  · intro hfailures g hg f hf hacked p hp
    rcases h.settled hfailures g (List.mem_of_mem_filter hg) f hf hacked p hp with hin | hway
    · exact .inl hin
    · exact hway.finish hF rfl rfl fun hcarried => absurd hcarried (carries_nothing rfl)

theorem rows_timed {f : Frame} (h : ∀ line ∈ f.lines, line.time ≠ none) (a b : Int) :
    f.rows a = f.rows b := by
  refine List.map_congr_left fun p hp => ?_
  obtain ⟨time, htime⟩ := Option.ne_none_iff_exists'.mp
    (h p.1 (List.fst_mem_of_mem_zipIdx hp))
  simp only [htime, Option.getD_some]

theorem mem_openWal {wal : List Generation} {encrypted : Bool} {f : Frame} :
    (∃ g ∈ (openWal wal encrypted).1, f ∈ g.2) ↔ ∃ g ∈ wal, f ∈ g.2 := by
  have hframes := openWal_frames wal encrypted
  rw [← List.mem_flatMap, ← List.mem_flatMap, hframes]

theorem Durable.reopen (h : Durable s) {encrypted : Bool} {applied : Frame → Nat}
    (hwhole : ∀ g ∈ s.wal, ∀ f ∈ g.2, replaysWhole applied f) :
    Durable (reopen s encrypted applied) := by
  refine ⟨h.base.reopen encrypted applied, ?_, ?_, ?_⟩
  · exact fun _ _ _ _ hF => by simp [Engine.reopen] at hF
  · intro p hp
    refine (h.durable p hp).imp id ?_
    rintro ⟨g, hg, f, hf, hrest⟩
    obtain ⟨g', hg', hf'⟩ := mem_openWal.mpr ⟨g, hg, hf⟩
    exact ⟨g', hg', f, hf', hrest⟩
  · intro _ g hg f hf hacked p hp
    obtain ⟨g', hg', hf'⟩ := mem_openWal.mp ⟨g, hg, hf⟩
    obtain ⟨hlength, htimed⟩ := hwhole g' hg' f hf' hacked
    refine .inr (.inr ⟨?_, fun k F hF => by simp [Engine.reopen] at hF⟩)
    refine List.mem_flatMap.mpr ⟨f, List.mem_flatMap.mpr ⟨g', hg', hf'⟩, ?_⟩
    have hrows : (f.rows 0).length ≤ applied f := by
      simpa [Frame.rows, applyLines] using hlength
    rw [List.take_of_length_le hrows, rows_timed htimed 0 f.now]
    exact hp

theorem Durable.initial : Durable initial where
  base := Base.initial
  single := fun _ _ _ _ hF => by simp [Engine.initial] at hF
  durable := fun _ hp => by cases hp
  settled := by
    intro _ g hg f hf
    rw [List.mem_singleton.mp hg] at hf
    cases hf

theorem Durable.step (h : Durable s) {a : Action} (hsafe : reclaimsSafely s a)
    (hs : step s a = some t) : Durable t := by
  obtain ⟨hwhole, horderly⟩ := hsafe
  cases a with
  | write db lines now applied =>
      obtain rfl := Option.some.inj hs
      exact h.write db lines now applied
  | recover => exact absurd horderly id
  | handover k columns rotation unreadable => exact h.handover horderly hs
  | upload k size => exact h.upload hwhole hs
  | uploadFail k bumped => exact h.uploadFail hs
  | commit k result => exact h.commit hs
  | release k => exact h.release hs
  | reclaim k deleted => exact h.reclaim horderly hs
  | drop => exact absurd horderly id
  | reopen encrypted applied =>
      obtain rfl := Option.some.inj hs
      exact h.reopen horderly

end Durable

/-- In every run of writes, flushes one after the other and crashes, with any
table, rotation or commit failing, every acknowledged row is in a listed file or
in a frame on disk, and a reclaim takes no generation with an acknowledged row
that no listed file has. The reclaims of the run are made by processes that have
left no table without its file, replays are whole, and an object is replaced only
by one with all its rows. -/
theorem acknowledged_rows_durable {acts : List Action} {s : State}
    (run : Run step reclaimsSafely initial acts s) :
    (∀ p ∈ s.acked, filed s p ∨ onDisk s p) ∧
      ∀ k deleted t, reclaimsSafely s (.reclaim k deleted) →
        step s (.reclaim k deleted) = some t →
        ∀ g ∈ s.wal, g ∉ t.wal → ∀ f ∈ g.2, f.acked → ∀ p ∈ f.rows f.now, filed s p := by
  have hinv : Durable s := run.invariant (fun _ _ _ h hok hs => h.step hok hs) Durable.initial
  refine ⟨hinv.durable, ?_⟩
  intro k deleted t hsafe hs g hg hgone f hf hacked p hp
  exact hinv.reclaims hsafe.2 hs hg hgone hf hacked hp

def point (table : String) (time : Int) : Line := ⟨table, some time, untagged, []⟩

/-- Two tables are written and flushed, and the upload of the first one fails. -/
def halfFlushed : List Action :=
  [.write "d" [point "t" 100, point "u" 100] 0 2,
    .handover 0 (fun _ => []) .ok fun _ => false, .uploadFail 0 true, .upload 0 0, .commit 0 .ok,
    .release 0, .reclaim 0 9]

/-- The process restarts before the next flush, which puts the second table's
file where it was. -/
def halfFlushedAndReopened : List Action :=
  halfFlushed ++
    [.reopen false fun f => f.lines.length, .handover 0 (fun _ => []) .ok fun _ => false,
      .upload 0 0, .upload 0 0, .commit 0 .ok, .release 0, .reclaim 0 9]

theorem halfFlushedAndReopened_durable : ∃ s,
    Run step reclaimsSafely initial halfFlushedAndReopened s ∧ s.acked.length = 2 ∧
      s.wal = [(2, [])] ∧ ∀ p ∈ s.acked, filed s p := by
  obtain ⟨s, run, hs⟩ := exists_run_of_checkedRun step reclaimsSafely initial
    halfFlushedAndReopened (fun s => (s.acked.length, s.wal)) (2, [(2, [])]) (by decide +kernel)
  obtain ⟨hacked, hwal⟩ := Prod.mk.inj hs
  refine ⟨s, run, hacked, hwal, fun p hp => ?_⟩
  rcases (acknowledged_rows_durable run).1 p hp with hfiled | ⟨g, hg, f, hf, _⟩
  · exact hfiled
  · rw [hwal, List.mem_singleton] at hg
    rw [hg] at hf
    cases hf

/-- No restart: a second flush, of the other table alone, succeeds and reclaims
the generation the failed one was kept in. -/
def halfFlushedAndReclaimed : List Action :=
  halfFlushed ++
    [.write "d" [point "u" 200] 0 1, .handover 0 (fun _ => []) .ok fun _ => false, .upload 0 0,
      .commit 0 .ok, .release 0, .reclaim 0 9]

theorem halfFlushedAndReclaimed_loses_row : ∃ s,
    Run step (fun _ _ => True) initial halfFlushedAndReclaimed s ∧
      (("d", "t"), ⟨100, untagged, [], 0⟩) ∈ s.acked ∧
      ¬ filed s (("d", "t"), ⟨100, untagged, [], 0⟩) ∧
      ¬ onDisk s (("d", "t"), ⟨100, untagged, [], 0⟩) := by
  obtain ⟨s, run, hs⟩ := exists_run_of_checkedRun step (fun _ _ => True) initial
    halfFlushedAndReclaimed
    (fun s => decide ((("d", "t"), ⟨100, untagged, [], 0⟩) ∈ s.acked ∧
      ¬ filed s (("d", "t"), ⟨100, untagged, [], 0⟩) ∧
      ¬ onDisk s (("d", "t"), ⟨100, untagged, [], 0⟩))) true (by decide +kernel)
  exact ⟨s, run, of_decide_eq_true hs⟩

end TimeLake.Engine
