import TimeLake.Engine.Machine
import TimeLake.Cluster.LastWrite
import Mathlib.Data.List.Flatten

/-!
What holds of one engine in every run: the log ends in the file being written,
its frames and the buffers are in write order, every flight sealed a generation
before that file, and the files of a flight, whose names no other flight of this
process has, hold the last write of every key of the tables it has finished.
-/

namespace TimeLake.Engine

open TimeLake.Library TimeLake.Catalog TimeLake.Rows TimeLake.Store TimeLake.Cluster

/-- The rows of an object. -/
def contentOf (s : State) (q : AbsPath) : List Row := (s.objects q).getD []

/-- Some listed file of the table has the row or a later write of its key. -/
def filed (s : State) (p : TableKey × Row) : Prop :=
  Retains (contentOf s) (listed s.log) p

instance (r' r : Row) : Decidable (Supersedes r' r) := inferInstanceAs (Decidable (_ ∧ _))

instance (s : State) (p : TableKey × Row) : Decidable (filed s p) :=
  inferInstanceAs (Decidable (∃ f ∈ listed s.log, _))

def Flight.outputs : Flight → List FileMeta
  | .uploading _ _ _ current metas _ => current ++ metas
  | _ => []

def Flight.sealedGen : Flight → Nat
  | .uploading gen .. => gen
  | .committed gen .. => gen
  | .released gen _ => gen

/-- The object the next upload of a flight writes, and the rows it puts there. -/
def nextUpload (s : State) : Action → Option (AbsPath × List Row)
  | .upload k _ =>
      match s.flights.lookup k with
      | some (.uploading _ _ (⟨key, _, _, (partition, piece) :: _⟩ :: _) _ _ _) =>
          some ((fileTag .fresh key.1 key.2 partition (timeBounds piece).2 s.fileSeq).path, piece)
      | _ => none
  | _ => none

/-- The object of a listed file is replaced only by one that has every row of it
or a later write of the row's key. -/
def replacesWhole (s : State) (a : Action) : Prop :=
  ∀ put ∈ nextUpload s a, (∃ f ∈ listed s.log, objectOf f = put.1) →
    ∀ r ∈ contentOf s put.1, ∃ r' ∈ put.2, Supersedes r' r

instance (s : State) (a : Action) : Decidable (replacesWhole s a) :=
  inferInstanceAs (Decidable (∀ put ∈ nextUpload s a, _))

/-- The uploads of a flight: the record of the file and its rows. -/
inductive Uploads (seq size : Nat) : Flight → FileMeta → List Row → Flight → Prop where
  | piece (gen : Nat) (failed : Bool) (key : TableKey) (columns : List String) (rows : List Row)
      (partition : String) (piece : List Row) (next : String × List Row)
      (pieces : List (String × List Row)) (todo : List FlushTable)
      (current metas : List FileMeta) (done : List FlushTable) :
      Uploads seq size
        (.uploading gen failed (⟨key, columns, rows, (partition, piece) :: next :: pieces⟩ :: todo)
          current metas done)
        (outputMeta .fresh key partition piece (timeBounds piece).2 seq size) piece
        (.uploading gen failed (⟨key, columns, rows, next :: pieces⟩ :: todo)
          (current ++ [outputMeta .fresh key partition piece (timeBounds piece).2 seq size])
          metas done)
  | lastPiece (gen : Nat) (failed : Bool) (key : TableKey) (columns : List String)
      (rows : List Row) (partition : String) (piece : List Row) (todo : List FlushTable)
      (current metas : List FileMeta) (done : List FlushTable) :
      Uploads seq size
        (.uploading gen failed (⟨key, columns, rows, [(partition, piece)]⟩ :: todo) current metas
          done)
        (outputMeta .fresh key partition piece (timeBounds piece).2 seq size) piece
        (.uploading gen failed todo []
          (metas ++ (current ++
            [outputMeta .fresh key partition piece (timeBounds piece).2 seq size]))
          (done ++ [⟨key, columns, rows, []⟩]))

/-- The state after flight `k` has put the rows of file `f`. -/
def uploaded (s : State) (k : Nat) (f : FileMeta) (rows : List Row) (F : Flight) : State :=
  { s with
    fileSeq := s.fileSeq + 1
    objects := Function.update s.objects (objectOf f) (some rows)
    flights := s.flights.insert k F }

theorem upload_cases {s t : State} {k size : Nat} (h : upload s k size = some t) :
    ∃ F f rows F', s.flights.lookup k = some F ∧ Uploads s.fileSeq size F f rows F' ∧
      nextUpload s (.upload k size) = some (objectOf f, rows) ∧ t = uploaded s k f rows F' := by
  simp only [upload] at h
  split at h
  · next gen failed key columns rows partition piece pieces todo current metas done hF =>
      have hobject := abs_dataPath .fresh key.1 key.2 partition (timeBounds piece).2 s.fileSeq
      cases pieces with
      | nil =>
          obtain rfl := Option.some.inj h
          refine ⟨_, _, _, _, hF, .lastPiece gen failed key columns rows partition piece todo
            current metas done, ?_, ?_⟩
          · simp only [nextUpload, hF, ← hobject]
            rfl
          · rw [uploaded, ← hobject]
            rfl
      | cons next pieces =>
          obtain rfl := Option.some.inj h
          refine ⟨_, _, _, _, hF, .piece gen failed key columns rows partition piece next pieces
            todo current metas done, ?_, ?_⟩
          · simp only [nextUpload, hF, ← hobject]
            rfl
          · rw [uploaded, ← hobject]
            rfl
  · cases h

/-- What a flight has written and is to write. -/
structure Uploading (content : AbsPath → List Row) (todo : List FlushTable)
    (current metas : List FileMeta) (done : List FlushTable) : Prop where
  writing : ∀ table rest, todo = table :: rest → Encoded content table current table.pieces
  waiting : ∀ table rest, todo = table :: rest → ∀ b ∈ rest, Encoded content b [] b.pieces
  sorted : ∀ b ∈ todo, b.rows.Pairwise fun r r' => r.arrival < r'.arrival
  stored : ∀ b ∈ done, ∀ r ∈ b.rows, Retains content metas (b.key, r)

def FlightInv (content : AbsPath → List Row) : Flight → Prop
  | .uploading _ _ todo current metas done => Uploading content todo current metas done
  | _ => True

section Flight

variable {content content' : AbsPath → List Row} {seq size : Nat} {F F' : Flight}
  {f : FileMeta} {rows : List Row}

theorem FlightInv.transfer (h : FlightInv content F)
    (hcontent : ∀ g ∈ F.outputs, content' (objectOf g) = content (objectOf g)) :
    FlightInv content' F := by
  cases F with
  | uploading gen failed todo current metas done =>
      refine ⟨?_, ?_, h.sorted, ?_⟩
      · intro table rest htodo
        exact (h.writing table rest htodo).transfer
          fun g hg => hcontent g (List.mem_append_left _ hg)
      · intro table rest htodo b hb
        exact (h.waiting table rest htodo b hb).transfer fun _ hg => by cases hg
      · intro b hb r hr
        exact (h.stored b hb r hr).congr fun g hg => hcontent g (List.mem_append_right _ hg)
  | committed => trivial
  | released => trivial

theorem Uploads.outputs (h : Uploads seq size F f rows F') : F'.outputs.Perm (f :: F.outputs) := by
  cases h with
  | piece =>
      simp only [Flight.outputs, List.append_assoc, List.singleton_append]
      exact List.perm_middle
  | lastPiece =>
      simp only [Flight.outputs, List.nil_append]
      rw [← List.append_assoc]
      refine (List.perm_append_singleton _ _).trans ?_
      exact List.Perm.cons _ List.perm_append_comm

theorem Uploads.sealedGen_eq (h : Uploads seq size F f rows F') : F'.sealedGen = F.sealedGen := by
  cases h <;> rfl

theorem Uploads.tag (h : Uploads seq size F f rows F') :
    ∃ tag : FileTag, objectOf f = tag.path ∧ tag.seq = seq := by
  cases h <;> exact ⟨_, abs_dataPath _ _ _ _ _ _, rfl⟩

theorem Uploads.flightInv (h : Uploads seq size F f rows F') (hF : FlightInv content F)
    (hrows : content (objectOf f) = rows) : FlightInv content F' := by
  cases h with
  | piece gen failed key columns batch partition rows next pieces todo current metas done =>
      have hsorted := hF.sorted _ List.mem_cons_self
      refine ⟨?_, ?_, ?_, hF.stored⟩
      · rintro table rest ⟨⟩
        exact (hF.writing _ _ rfl).next rfl rfl hrows
      · rintro table rest ⟨⟩ b hb
        exact hF.waiting _ _ rfl b hb
      · intro b hb
        rcases List.mem_cons.mp hb with rfl | hb
        · exact hsorted
        · exact hF.sorted b (List.mem_cons_of_mem _ hb)
  | lastPiece gen failed key columns batch partition rows todo current metas done =>
      have hsorted := hF.sorted _ List.mem_cons_self
      refine ⟨?_, ?_, fun b hb => hF.sorted b (List.mem_cons_of_mem _ hb), ?_⟩
      · rintro table rest rfl
        exact hF.waiting _ _ rfl table List.mem_cons_self
      · rintro table rest rfl b hb
        exact hF.waiting _ _ rfl b (List.mem_cons_of_mem _ hb)
      · intro b hb r hr
        rcases List.mem_append.mp hb with hold | hnew
        · exact (hF.stored b hold r hr).mono (List.subset_append_left _ _)
        · obtain rfl := List.mem_singleton.mp hnew
          have hlast := (hF.writing _ _ rfl).next (f := outputMeta .fresh key partition rows
            (timeBounds rows).2 seq size) rfl rfl hrows
          have hstores := hlast.stores hsorted
          refine (hstores.retained (key, r) (List.mem_map.mpr ⟨r, hr, rfl⟩)).mono ?_
          exact List.subset_append_right _ _

end Flight

section Rows

variable {db : String} {lines : List Line} {defaultTs : Int} {first : Nat}

theorem applyLines_arrival (db : String) (lines : List Line) (defaultTs : Int) (first : Nat) :
    ((applyLines db lines defaultTs first).map fun p => p.2.arrival) =
      List.range' first lines.length := by
  rw [applyLines, List.map_map]
  exact List.zipIdx_map_snd _ _

theorem applyLines_sorted :
    (applyLines db lines defaultTs first).Pairwise fun p q => p.2.arrival < q.2.arrival := by
  have hrange : ((applyLines db lines defaultTs first).map fun p => p.2.arrival).Pairwise
      (· < ·) := by
    rw [applyLines_arrival]
    exact List.pairwise_lt_range'
  exact List.pairwise_map.mp hrange

theorem applyLines_bounds {p : TableKey × Row} (h : p ∈ applyLines db lines defaultTs first) :
    first ≤ p.2.arrival ∧ p.2.arrival < first + lines.length := by
  have hin : p.2.arrival ∈ List.range' first lines.length := by
    rw [← applyLines_arrival db lines defaultTs]
    exact List.mem_map.mpr ⟨p, h, rfl⟩
  simpa using List.mem_range'_1.mp hin

end Rows

/-- A flight in order; `tag` is what its file's name is made of. -/
structure FlightOk (s : State) (F : Flight) : Prop where
  inv : FlightInv (contentOf s) F
  earlier : F.sealedGen < s.handle.file
  numbered : ∀ f ∈ F.outputs, ∃ tag : FileTag, objectOf f = tag.path ∧ tag.seq < s.fileSeq

/-- The part of the invariant that no failure breaks. -/
structure Base (s : State) : Prop where
  shape : ∃ older current, s.wal = older ++ [(s.handle.file, current)] ∧
    ∀ g ∈ older, g.1 < s.handle.file
  counted : s.handle.file ≤ s.handle.generation
  frames : (s.wal.flatMap Prod.snd).Pairwise fun f f' => f.first + f.lines.length ≤ f'.first
  known : ∀ f ∈ s.wal.flatMap Prod.snd, f.first + f.lines.length ≤ s.arrivals
  sorted : s.dbs.Pairwise fun p q => p.2.arrival < q.2.arrival
  bounded : ∀ p ∈ s.dbs, p.2.arrival < s.arrivals
  flight : ∀ k F, s.flights.lookup k = some F → FlightOk s F

section Base

variable {s t : State}

theorem appendFrame_last {older : List Generation} (current : List Frame) {file : Nat} (f : Frame)
    (h : ∀ g ∈ older, g.1 < file) :
    appendFrame (older ++ [(file, current)]) file f = older ++ [(file, current ++ [f])] := by
  have hold : older.map (fun g => if g.1 = file then (g.1, g.2 ++ [f]) else g) = older := by
    conv_rhs => rw [← List.map_id older]
    apply List.map_congr_left
    intro g hg
    have hne : g.1 ≠ file := Nat.ne_of_lt (h g hg)
    simp [hne]
  simp [appendFrame, hold]

theorem sorted_append {old new : List (TableKey × Row)} {n : Nat}
    (hold : old.Pairwise fun p q => p.2.arrival < q.2.arrival) (hbound : ∀ p ∈ old, p.2.arrival < n)
    (hnew : new.Pairwise fun p q => p.2.arrival < q.2.arrival)
    (hfrom : ∀ p ∈ new, n ≤ p.2.arrival) :
    (old ++ new).Pairwise fun p q => p.2.arrival < q.2.arrival := by
  rw [List.pairwise_append]
  exact ⟨hold, hnew, fun p hp q hq => Nat.lt_of_lt_of_le (hbound p hp) (hfrom q hq)⟩

theorem FlightOk.later {F : Flight} (h : FlightOk s F) (hobjects : t.objects = s.objects)
    (hfile : s.handle.file ≤ t.handle.file) (hseq : s.fileSeq ≤ t.fileSeq) : FlightOk t F := by
  refine ⟨h.inv.transfer fun g _ => ?_, Nat.lt_of_lt_of_le h.earlier hfile, ?_⟩
  · rw [contentOf, hobjects, contentOf]
  · intro f hf
    obtain ⟨tag, hpath, hlt⟩ := h.numbered f hf
    exact ⟨tag, hpath, Nat.lt_of_lt_of_le hlt hseq⟩

/-- A flight that moves on keeps the generation it sealed. -/
theorem FlightOk.next {F F' : Flight} (h : FlightOk s F) (hinv : FlightInv (contentOf s) F')
    (hgen : F'.sealedGen = F.sealedGen) (houts : F'.outputs ⊆ F.outputs) : FlightOk s F' :=
  ⟨hinv, hgen ▸ h.earlier, fun f hf => h.numbered f (houts hf)⟩

theorem Base.buffered (h : Base s) (db : String) (lines : List Line) (defaultTs : Int) (n : Nat) :
    (s.dbs ++ (applyLines db lines defaultTs s.arrivals).take n).Pairwise
        (fun p q => p.2.arrival < q.2.arrival) ∧
      ∀ p ∈ s.dbs ++ (applyLines db lines defaultTs s.arrivals).take n,
        p.2.arrival < s.arrivals + lines.length := by
  constructor
  · refine sorted_append h.sorted h.bounded (applyLines_sorted.sublist (List.take_sublist _ _)) ?_
    exact fun p hp => (applyLines_bounds (List.mem_of_mem_take hp)).1
  · intro p hp
    rcases List.mem_append.mp hp with hp | hp
    · exact Nat.lt_of_lt_of_le (h.bounded p hp) (Nat.le_add_right _ _)
    · exact (applyLines_bounds (List.mem_of_mem_take hp)).2

theorem Base.write (h : Base s) (db : String) (lines : List Line) (now : Int) (applied : Nat) :
    Base (write s db lines now applied) := by
  obtain ⟨older, current, hwal, holder⟩ := h.shape
  obtain ⟨hsorted, hbounded⟩ := h.buffered db lines now applied
  have happend := appendFrame_last current
    ⟨db, lines, s.arrivals, now, lines.length ≤ applied⟩ holder
  rw [← hwal] at happend
  have hframes : (Engine.write s db lines now applied).wal.flatMap Prod.snd =
      s.wal.flatMap Prod.snd ++ [⟨db, lines, s.arrivals, now, lines.length ≤ applied⟩] := by
    rw [hwal]
    simp only [Engine.write, happend, List.flatMap_append, List.flatMap_singleton,
      List.append_assoc]
  refine ⟨⟨older, _, happend, holder⟩, h.counted, ?_, ?_, hsorted, hbounded, ?_⟩
  · rw [hframes, List.pairwise_append]
    refine ⟨h.frames, List.pairwise_singleton _ _, ?_⟩
    intro f hf f' hf'
    rw [List.mem_singleton.mp hf']
    exact h.known f hf
  · rw [hframes]
    intro f hf
    rcases List.mem_append.mp hf with hf | hf
    · exact Nat.le_trans (h.known f hf) (Nat.le_add_right _ _)
    · rw [List.mem_singleton.mp hf]
      exact Nat.le_refl _
  · exact fun k F hF => (h.flight k F hF).later rfl (Nat.le_refl _) (Nat.le_refl _)

theorem Base.recover (h : Base s) (db : String) (lines : List Line) (applied : Nat) :
    Base (recover s db lines applied) := by
  obtain ⟨hsorted, hbounded⟩ := h.buffered db lines 0 applied
  refine ⟨h.shape, h.counted, h.frames, ?_, hsorted, hbounded, ?_⟩
  · exact fun f hf => Nat.le_trans (h.known f hf) (Nat.le_add_right _ _)
  · exact fun k F hF => (h.flight k F hF).later rfl (Nat.le_refl _) (Nat.le_refl _)

/-- The log stays and the flights are in order. -/
theorem Base.frame (h : Base s) (hwal : t.wal = s.wal) (hfile : t.handle.file = s.handle.file)
    (hcounted : s.handle.generation ≤ t.handle.generation) (harrivals : t.arrivals = s.arrivals)
    (hdbs : t.dbs.Sublist s.dbs)
    (hflights : ∀ k F, t.flights.lookup k = some F → FlightOk t F) : Base t := by
  refine ⟨?_, ?_, ?_, ?_, h.sorted.sublist hdbs, ?_, hflights⟩
  · rw [hwal, hfile]
    exact h.shape
  · rw [hfile]
    exact Nat.le_trans h.counted hcounted
  · rw [hwal]
    exact h.frames
  · rw [hwal, harrivals]
    exact h.known
  · rw [harrivals]
    exact fun p hp => h.bounded p (hdbs.subset hp)

theorem Base.insert (h : Base s) {k : Nat} {F' : Flight} (hF' : FlightOk s F') :
    ∀ j G, (s.flights.insert k F').lookup j = some G → FlightOk s G := by
  intro j G hG
  rcases AssocMap.of_lookup_insert hG with ⟨_, rfl⟩ | ⟨_, hold⟩
  · exact hF'
  · exact h.flight j G hold

theorem Base.erase (h : Base s) {k : Nat} :
    ∀ j G, (s.flights.erase k).lookup j = some G → FlightOk s G :=
  fun j G hG => h.flight j G (AssocMap.of_lookup_erase hG).2

theorem snapshots_sorted {dbs : List (TableKey × Row)}
    (h : dbs.Pairwise fun p q => p.2.arrival < q.2.arrival) {columns : TableKey → List String}
    {b : FlushTable} (hb : b ∈ snapshots dbs columns) :
    b.rows.Pairwise fun r r' => r.arrival < r'.arrival := by
  obtain ⟨key, _, rfl⟩ := List.mem_map.mp hb
  exact List.pairwise_map.mpr (h.sublist List.filter_sublist)

theorem Base.handover (h : Base s) {k : Nat} {columns : TableKey → List String}
    {rotation : Rotation} {unreadable : TableKey → Bool}
    (hs : handover s k columns rotation unreadable = some t) : Base t := by
  simp only [Engine.handover] at hs
  split at hs
  · next hok =>
      cases rotation with
      | syncFailed =>
          obtain rfl := Option.some.inj hs
          exact h.frame rfl rfl (Nat.le_refl _) rfl (List.nil_sublist _)
            fun j G hG => (h.flight j G hG).later rfl (Nat.le_refl _) (Nat.le_refl _)
      | createFailed =>
          obtain rfl := Option.some.inj hs
          exact h.frame rfl rfl (Nat.le_succ _) rfl (List.nil_sublist _)
            fun j G hG => (h.flight j G hG).later rfl (Nat.le_refl _) (Nat.le_refl _)
      | ok =>
          obtain rfl := Option.some.inj hs
          obtain ⟨older, current, hwal, holder⟩ := h.shape
          have hflat : (s.wal ++ [(s.handle.generation + 1, [])]).flatMap Prod.snd =
              s.wal.flatMap Prod.snd := by simp
          have hencoded : ∀ b ∈ (snapshots s.dbs columns).filter fun b => !unreadable b.key,
              Encoded (contentOf s) b [] b.pieces :=
            fun b hb => encoded_snapshots _ hok.2.2 (List.mem_of_mem_filter hb)
          have hfile : s.handle.file ≤ s.handle.generation + 1 := Nat.le_succ_of_le h.counted
          refine ⟨⟨s.wal, [], rfl, ?_⟩, Nat.le_refl _, ?_, ?_, List.Pairwise.nil, ?_, ?_⟩
          · intro g hg
            have hle : g.1 ≤ s.handle.file := by
              rw [hwal] at hg
              rcases List.mem_append.mp hg with hg | hg
              · exact Nat.le_of_lt (holder g hg)
              · rw [List.mem_singleton.mp hg]
            exact Nat.lt_succ_of_le (Nat.le_trans hle h.counted)
          · rw [hflat]
            exact h.frames
          · rw [hflat]
            exact h.known
          · exact fun p hp => by cases hp
          · intro j G hG
            rcases AssocMap.of_lookup_insert hG with ⟨_, rfl⟩ | ⟨_, hold⟩
            · refine ⟨⟨?_, ?_, ?_, ?_⟩, Nat.lt_succ_self _, fun f hf => by cases hf⟩
              · exact fun table rest htodo => hencoded table (htodo ▸ List.mem_cons_self)
              · exact fun table rest htodo b hb =>
                  hencoded b (htodo ▸ List.mem_cons_of_mem _ hb)
              · exact fun b hb => snapshots_sorted h.sorted (List.mem_of_mem_filter hb)
              · exact fun b hb => by cases hb
            · exact (h.flight j G hold).later rfl hfile (Nat.le_refl _)
  · cases hs

/-- No file of a flight has the name of the next file. -/
theorem FlightOk.unused {F : Flight} (h : FlightOk s F) {tag : FileTag} (htag : tag.seq = s.fileSeq)
    {g : FileMeta} (hg : g ∈ F.outputs) : objectOf g ≠ tag.path := by
  obtain ⟨tag', hpath, hlt⟩ := h.numbered g hg
  intro heq
  have hsame : tag' = tag := FileTag.path_injective (hpath.symm.trans heq)
  rw [hsame, htag] at hlt
  exact Nat.lt_irrefl _ hlt

theorem contentOf_uploaded (k : Nat) (f : FileMeta) (rows : List Row) (F' : Flight) (q : AbsPath) :
    contentOf (uploaded s k f rows F') q = if q = objectOf f then rows else contentOf s q := by
  by_cases hq : q = objectOf f
  · simp [contentOf, uploaded, hq]
  · simp [contentOf, uploaded, hq]

theorem Base.upload (h : Base s) {k size : Nat} (hs : upload s k size = some t) : Base t := by
  obtain ⟨F, f, rows, F', hF, hup, _, rfl⟩ := upload_cases hs
  obtain ⟨tag, hpath, htag⟩ := hup.tag
  have hkeep : ∀ j G, s.flights.lookup j = some G → ∀ g ∈ G.outputs,
      contentOf (uploaded s k f rows F') (objectOf g) = contentOf s (objectOf g) := by
    intro j G hG g hg
    have hne := (h.flight j G hG).unused htag hg
    rw [contentOf_uploaded, if_neg (hpath ▸ hne)]
  have hrows : contentOf (uploaded s k f rows F') (objectOf f) = rows := by
    rw [contentOf_uploaded, if_pos rfl]
  have hnumbered : ∀ j G, s.flights.lookup j = some G → ∀ g ∈ G.outputs,
      ∃ tag : FileTag, objectOf g = tag.path ∧ tag.seq < s.fileSeq + 1 := by
    intro j G hG g hg
    obtain ⟨tag', hpath', hlt⟩ := (h.flight j G hG).numbered g hg
    exact ⟨tag', hpath', Nat.lt_succ_of_lt hlt⟩
  refine h.frame rfl rfl (Nat.le_refl _) rfl (List.Sublist.refl _) ?_
  intro j G hG
  rcases AssocMap.of_lookup_insert hG with ⟨_, rfl⟩ | ⟨_, hold⟩
  · refine ⟨hup.flightInv ((h.flight k F hF).inv.transfer (hkeep k F hF)) hrows, ?_, ?_⟩
    · rw [hup.sealedGen_eq]
      exact (h.flight k F hF).earlier
    · intro g hg
      rcases List.mem_cons.mp (hup.outputs.subset hg) with rfl | hold
      · exact ⟨tag, hpath, htag ▸ Nat.lt_succ_self _⟩
      · exact hnumbered k F hF g hold
  · have hG := h.flight j G hold
    exact ⟨hG.inv.transfer (hkeep j G hold), hG.earlier, hnumbered j G hold⟩

theorem Base.uploadFail (h : Base s) {k : Nat} {bumped : Bool}
    (hs : uploadFail s k bumped = some t) : Base t := by
  simp only [Engine.uploadFail] at hs
  split at hs
  · next gen failed table todo current metas done hF =>
      obtain rfl := Option.some.inj hs
      have hok := h.flight k _ hF
      have hinv := hok.inv
      have hnext : FlightOk s (.uploading gen true todo [] metas done) := by
        refine hok.next ⟨?_, ?_, ?_, hinv.stored⟩ rfl (List.subset_append_right _ _)
        · rintro next rest rfl
          exact hinv.waiting table _ rfl next List.mem_cons_self
        · rintro next rest rfl b hb
          exact hinv.waiting table _ rfl b (List.mem_cons_of_mem _ hb)
        · exact fun b hb => hinv.sorted b (List.mem_cons_of_mem _ hb)
      have hseq : s.fileSeq ≤ if bumped then s.fileSeq + 1 else s.fileSeq := by
        split <;> omega
      exact h.frame rfl rfl (Nat.le_refl _) rfl (List.Sublist.refl _) fun j G hG =>
        (h.insert hnext j G hG).later rfl (Nat.le_refl _) hseq
  · cases hs

theorem Base.commit (h : Base s) {k : Nat} {result : CommitResult}
    (hs : commit s k result = some t) : Base t := by
  simp only [Engine.commit] at hs
  split at hs
  · next gen failed current metas done hF =>
      have hok := h.flight k _ hF
      cases result with
      | ok =>
          obtain rfl := Option.some.inj hs
          have hnext : FlightOk s (.committed gen failed done) :=
            ⟨trivial, hok.earlier, fun f hf => by cases hf⟩
          exact h.frame rfl rfl (Nat.le_refl _) rfl (List.Sublist.refl _) fun j G hG =>
            (h.insert hnext j G hG).later rfl (Nat.le_refl _) (Nat.le_refl _)
      | failed landed =>
          obtain rfl := Option.some.inj hs
          exact h.frame rfl rfl (Nat.le_refl _) rfl (List.Sublist.refl _) fun j G hG =>
            (h.erase j G hG).later rfl (Nat.le_refl _) (Nat.le_refl _)
  · cases hs

theorem Base.release (h : Base s) {k : Nat} (hs : release s k = some t) : Base t := by
  simp only [Engine.release] at hs
  split at hs
  · next gen failed done hF =>
      obtain rfl := Option.some.inj hs
      have hok := h.flight k _ hF
      have hnext : FlightOk s (.released gen failed) :=
        ⟨trivial, hok.earlier, fun f hf => by cases hf⟩
      exact h.frame rfl rfl (Nat.le_refl _) rfl (List.Sublist.refl _) fun j G hG =>
        (h.insert hnext j G hG).later rfl (Nat.le_refl _) (Nat.le_refl _)
  · cases hs

theorem mem_victims {s : State} {upto g : Nat} :
    g ∈ victims s upto ↔ (∃ G ∈ s.wal, G.1 = g) ∧ g ≤ upto ∧ g ≠ s.handle.generation := by
  simp [victims]

/-- A reclaim leaves the log it deletes from, less generations up to the one its
flush sealed, and none after a failed table. -/
theorem reclaim_cases {k deleted : Nat} (hs : reclaim s k deleted = some t) :
    ∃ gen failed, ∃ gone : List Nat, s.flights.lookup k = some (.released gen failed) ∧
      (∀ g ∈ gone, failed = false ∧ g ≤ gen) ∧
      t = { s with
        wal := s.wal.filter fun g => !gone.contains g.1
        flights := s.flights.erase k } := by
  simp only [reclaim] at hs
  split at hs
  · next gen failed hF =>
      refine ⟨gen, failed, _, hF, ?_, (Option.some.inj hs).symm⟩
      intro g hg
      cases failed with
      | true => cases hg
      | false => exact ⟨rfl, (mem_victims.mp (List.mem_of_mem_take hg)).2.1⟩
  · cases hs

theorem Base.reclaim (h : Base s) {k deleted : Nat} (hs : reclaim s k deleted = some t) :
    Base t := by
  obtain ⟨gen, failed, gone, hF, hgone, rfl⟩ := reclaim_cases hs
  obtain ⟨older, current, hwal, holder⟩ := h.shape
  have hkept : s.handle.file ∉ gone := by
    intro hin
    have hlt : gen < s.handle.file := (h.flight k _ hF).earlier
    exact absurd (hgone _ hin).2 (Nat.not_le.mpr hlt)
  have hsub : ((s.wal.filter fun g => !gone.contains g.1).flatMap Prod.snd).Sublist
      (s.wal.flatMap Prod.snd) := List.Sublist.flatMap List.filter_sublist _
  refine ⟨⟨older.filter fun g => !gone.contains g.1, current, ?_, ?_⟩, h.counted,
    h.frames.sublist hsub, fun f hf => h.known f (hsub.subset hf), h.sorted, h.bounded,
    fun j G hG => (h.erase j G hG).later rfl (Nat.le_refl _) (Nat.le_refl _)⟩
  · simp [hwal, hkept]
  · exact fun g hg => holder g (List.mem_of_mem_filter hg)

theorem Base.drop (h : Base s) (key : TableKey) (stage : DropStage) :
    Base (dropTable s key stage) := by
  cases stage with
  | catalog =>
      exact h.frame rfl rfl (Nat.le_refl _) rfl (List.Sublist.refl _)
        fun j G hG => (h.flight j G hG).later rfl (Nat.le_refl _) (Nat.le_refl _)
  | held =>
      exact h.frame rfl rfl (Nat.le_refl _) rfl (List.Sublist.refl _)
        fun j G hG => (h.flight j G hG).later rfl (Nat.le_refl _) (Nat.le_refl _)
  | buffers =>
      exact h.frame rfl rfl (Nat.le_refl _) rfl List.filter_sublist
        fun j G hG => (h.flight j G hG).later rfl (Nat.le_refl _) (Nat.le_refl _)

theorem replay_sorted {frames : List Frame} (applied : Frame → Nat)
    (h : frames.Pairwise fun f f' => f.first + f.lines.length ≤ f'.first) :
    (frames.flatMap fun f => (f.rows 0).take (applied f)).Pairwise
      fun p q => p.2.arrival < q.2.arrival := by
  rw [List.pairwise_flatMap]
  constructor
  · exact fun f _ => applyLines_sorted.sublist (List.take_sublist _ _)
  · refine h.imp ?_
    intro f f' hle p hp q hq
    have hlast := (applyLines_bounds (List.mem_of_mem_take hp)).2
    have hfirst := (applyLines_bounds (List.mem_of_mem_take hq)).1
    omega

theorem openWal_frames (wal : List Generation) (encrypted : Bool) :
    (openWal wal encrypted).1.flatMap Prod.snd = wal.flatMap Prod.snd := by
  rcases List.eq_nil_or_concat wal with rfl | ⟨older, last, rfl⟩
  · rfl
  · cases encrypted <;> simp [openWal]

theorem openWal_shape {older : List Generation} {file : Nat} (current : List Frame)
    (h : ∀ g ∈ older, g.1 < file) (encrypted : Bool) :
    ∃ older' current', (openWal (older ++ [(file, current)]) encrypted).1 =
        older' ++ [((openWal (older ++ [(file, current)]) encrypted).2, current')] ∧
      ∀ g ∈ older', g.1 < (openWal (older ++ [(file, current)]) encrypted).2 := by
  cases encrypted with
  | false => exact ⟨older, current, by simp [openWal], by simpa [openWal] using h⟩
  | true =>
      refine ⟨older ++ [(file, current)], [], by simp [openWal], ?_⟩
      intro g hg
      simp only [openWal, List.getLast?_append, List.getLast?_singleton, Option.some_or]
      rcases List.mem_append.mp hg with hg | hg
      · exact Nat.lt_succ_of_lt (h g hg)
      · rw [List.mem_singleton.mp hg]
        exact Nat.lt_succ_self _

theorem Base.reopen (h : Base s) (encrypted : Bool) (applied : Frame → Nat) :
    Base (reopen s encrypted applied) := by
  obtain ⟨older, current, hwal, holder⟩ := h.shape
  refine ⟨?_, Nat.le_refl _, ?_, ?_, replay_sorted applied h.frames, ?_, ?_⟩
  · have hshape := openWal_shape current holder encrypted
    rw [← hwal] at hshape
    exact hshape
  · simp only [Engine.reopen, openWal_frames]
    exact h.frames
  · simp only [Engine.reopen, openWal_frames]
    exact h.known
  · intro p hp
    obtain ⟨f, hf, hin⟩ := List.mem_flatMap.mp hp
    exact Nat.lt_of_lt_of_le (applyLines_bounds (List.mem_of_mem_take hin)).2 (h.known f hf)
  · exact fun k F hF => by simp [Engine.reopen] at hF

theorem Base.initial : Base initial where
  shape := ⟨[], [], rfl, fun _ hg => by cases hg⟩
  counted := Nat.le_refl _
  frames := List.Pairwise.nil
  known := fun _ hf => by cases hf
  sorted := List.Pairwise.nil
  bounded := fun _ hp => by cases hp
  flight := fun _ _ hF => by simp [Engine.initial] at hF

theorem Base.step (h : Base s) {a : Action} (hs : step s a = some t) : Base t := by
  cases a with
  | write db lines now applied =>
      obtain rfl := Option.some.inj hs
      exact h.write db lines now applied
  | recover db lines applied =>
      obtain rfl := Option.some.inj hs
      exact h.recover db lines applied
  | handover k columns rotation unreadable => exact h.handover hs
  | upload k size => exact h.upload hs
  | uploadFail k bumped => exact h.uploadFail hs
  | commit k result => exact h.commit hs
  | release k => exact h.release hs
  | reclaim k deleted => exact h.reclaim hs
  | drop key stage =>
      obtain rfl := Option.some.inj hs
      exact h.drop key stage
  | reopen encrypted applied =>
      obtain rfl := Option.some.inj hs
      exact h.reopen encrypted applied

end Base

/-- The batches whose rows a flight has still to commit. -/
def Flight.batches : Flight → List FlushTable
  | .uploading _ _ todo _ _ done => todo ++ done
  | _ => []

def Flight.carries (F : Flight) (p : TableKey × Row) : Prop :=
  ∃ b ∈ F.batches, b.key = p.1 ∧ p.2 ∈ b.rows

section Filed

variable {s t : State} {p : TableKey × Row}

theorem mem_listed_addEntry {metas : List FileMeta} {f : FileMeta} :
    f ∈ listed (addEntry s metas) ↔ f ∈ listed s.log ∨ f ∈ metas := by
  rw [addEntry, mem_listed_snoc]
  simp [CommitArgs.entry, droppedBy]

theorem mem_listed_dropEntry {key : TableKey} {f : FileMeta} :
    f ∈ listed (dropEntry s key) ↔ f ∈ listed s.log ∧ f.key ≠ key := by
  rw [dropEntry, mem_listed_snoc]
  simp [CommitArgs.entry, droppedBy]

theorem filed_of_objects (h : filed s p) (hobjects : t.objects = s.objects)
    (hlog : listed s.log ⊆ listed t.log) : filed t p := by
  obtain ⟨f, hf, hkey, r, hr, hlater⟩ := h
  refine ⟨f, hlog hf, hkey, r, ?_, hlater⟩
  rw [contentOf, hobjects]
  exact hr

/-- A filed row stays filed unless its table is dropped from the catalog. -/
theorem filed_step {a : Action} (h : filed s p) (hwhole : replacesWhole s a)
    (hdrop : a ≠ .drop p.1 .catalog) (hs : step s a = some t) : filed t p := by
  cases a with
  | write db lines now applied =>
      obtain rfl := Option.some.inj hs
      exact h
  | recover db lines applied =>
      obtain rfl := Option.some.inj hs
      exact h
  | handover k columns rotation unreadable =>
      simp only [step, handover] at hs
      split at hs
      · cases rotation <;> obtain rfl := Option.some.inj hs <;> exact h
      · cases hs
  | upload k size =>
      obtain ⟨F, f, rows, F', _, _, hput, rfl⟩ := upload_cases hs
      obtain ⟨g, hg, hkey, r, hr, hlater⟩ := h
      by_cases hq : objectOf g = objectOf f
      · rw [hq] at hr
        obtain ⟨r', hr', hover⟩ := hwhole _ hput ⟨g, hg, hq⟩ r hr
        refine ⟨g, hg, hkey, r', ?_, hover.1.trans hlater.1, Nat.le_trans hlater.2 hover.2⟩
        rw [contentOf_uploaded, if_pos hq]
        exact hr'
      · refine ⟨g, hg, hkey, r, ?_, hlater⟩
        rw [contentOf_uploaded, if_neg hq]
        exact hr
  | uploadFail k bumped =>
      simp only [step, uploadFail] at hs
      split at hs
      · obtain rfl := Option.some.inj hs
        exact h
      · cases hs
  | commit k result =>
      have hadd : ∀ metas, listed s.log ⊆ listed (addEntry s metas) :=
        fun _ f hf => mem_listed_addEntry.mpr (.inl hf)
      simp only [step, commit] at hs
      split at hs
      · cases result with
        | ok =>
            obtain rfl := Option.some.inj hs
            exact filed_of_objects h rfl (hadd _)
        | failed landed =>
            obtain rfl := Option.some.inj hs
            cases landed with
            | false => exact h
            | true => exact filed_of_objects h rfl (hadd _)
      · cases hs
  | release k =>
      simp only [step, release] at hs
      split at hs
      · obtain rfl := Option.some.inj hs
        exact h
      · cases hs
  | reclaim k deleted =>
      obtain ⟨_, _, _, _, _, rfl⟩ := reclaim_cases hs
      exact h
  | drop key stage =>
      obtain rfl := Option.some.inj hs
      cases stage with
      | catalog =>
          obtain ⟨f, hf, hkey, hrest⟩ := h
          refine ⟨f, mem_listed_dropEntry.mpr ⟨hf, ?_⟩, hkey, hrest⟩
          rintro rfl
          exact hdrop (by rw [hkey])
      | held => exact h
      | buffers => exact h
  | reopen encrypted applied =>
      obtain rfl := Option.some.inj hs
      exact h

theorem mem_snapshots {dbs : List (TableKey × Row)} (columns : TableKey → List String)
    {p : TableKey × Row} (hp : p ∈ dbs) :
    ∃ b ∈ snapshots dbs columns, b.key = p.1 ∧ p.2 ∈ b.rows := by
  refine ⟨_, List.mem_map.mpr ⟨p.1, ?_, rfl⟩, rfl, ?_⟩
  · exact List.mem_dedup.mpr (List.mem_map.mpr ⟨p, hp, rfl⟩)
  · exact List.mem_map.mpr ⟨p, List.mem_filter.mpr ⟨hp, by simp⟩, rfl⟩

/-- What a flight carries when nothing is left to upload is filed by its commit. -/
theorem FlightOk.commits {gen : Nat} {failed : Bool} {current metas : List FileMeta}
    {done : List FlushTable} {p : TableKey × Row}
    (h : FlightOk s (.uploading gen failed [] current metas done))
    (hobjects : t.objects = s.objects)
    (hlog : t.log = addEntry s metas)
    (hp : Flight.carries (.uploading gen failed [] current metas done) p) : filed t p := by
  obtain ⟨b, hb, hkey, hrow⟩ := hp
  obtain ⟨f, hf, hfile, hrest⟩ := h.inv.stored b hb p.2 hrow
  refine ⟨f, ?_, hfile.trans hkey, ?_⟩
  · rw [hlog]
    exact mem_listed_addEntry.mpr (.inr hf)
  · rw [contentOf, hobjects]
    exact hrest

end Filed

end TimeLake.Engine
