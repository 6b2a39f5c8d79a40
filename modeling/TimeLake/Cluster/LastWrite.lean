import TimeLake.Cluster.Objects

/-!
Last write wins across files. A merge reads its inputs in path order and keeps
the last row of each primary key, so it keeps the client's last write exactly
when path order agrees with write order on the keys the inputs share. Paths
order files by their largest timestamp first, which a late row does not follow.
-/

namespace TimeLake.Cluster

open TimeLake.Library TimeLake.Catalog TimeLake.Rows TimeLake.Store

variable {ι : Type}

/-- Writes, flushes, compactions, deletions, restarts and failed calls. -/
def flushOrCompact : Action ι → Bool
  | .tombstone .. | .rewriteStart .. | .rewriteRead .. | .rewritePut .. | .rewriteCommit ..
  | .retentionStart .. | .retentionCommit .. | .dropStart .. | .dropCommit .. => false
  | _ => true

/-- The rows of the files a merge is about to take, in path order. -/
def mergeSets (s : State ι) : Action ι → Option (List (List Row))
  | .compactPut i k _ _ =>
      match s.task i k with
      | some (.compactRead _ _ [] sets) => some sets
      | _ => none
  | _ => none

/-- On the primary keys two files share, path order is write order. -/
def inWriteOrder (sets : List (List Row)) : Prop :=
  sets.Pairwise fun older newer =>
    ∀ a ∈ older, ∀ b ∈ newer, a.key = b.key → a.arrival ≤ b.arrival

instance (sets : List (List Row)) : Decidable (inWriteOrder sets) :=
  inferInstanceAs (Decidable (sets.Pairwise _))

def mergesInOrder (s : State ι) (a : Action ι) : Prop :=
  fresh s a ∧ flushOrCompact a = true ∧ ∀ sets ∈ mergeSets s a, inWriteOrder sets

/-- The rows of a table that committed flushes stored, in write order. -/
def storedRows (s : State ι) (key : TableKey) : List Row :=
  tableRows (s.written.filter s.flushed.contains) key

section Arrival

variable {s t : State ι} {a : Action ι}

/-- Rows are numbered in the order they were written, and a buffer holds them in
that order. -/
structure RowOrder (s : State ι) : Prop where
  numbered : (s.written.map fun p => p.2.arrival) = List.range s.written.length
  sorted : ∀ i, (s.node i).buffer.Pairwise fun p q => p.2.arrival < q.2.arrival
  known : ∀ i, (s.node i).buffer ⊆ s.written

theorem RowOrder.lt (h : RowOrder s) {p : TableKey × Row} (hp : p ∈ s.written) :
    p.2.arrival < s.written.length := by
  have hin : p.2.arrival ∈ s.written.map fun p => p.2.arrival := List.mem_map.mpr ⟨p, hp, rfl⟩
  rw [h.numbered] at hin
  exact List.mem_range.mp hin

theorem RowOrder.written_sorted (h : RowOrder s) :
    s.written.Pairwise fun p q => p.2.arrival < q.2.arrival := by
  have hrange : (s.written.map fun p => p.2.arrival).Pairwise (· < ·) := by
    rw [h.numbered]
    exact List.pairwise_lt_range
  exact List.pairwise_map.mp hrange

theorem RowOrder.write [DecidableEq ι] (h : RowOrder s) {i : ι} {key : TableKey} {time : Int}
    {tags : TagSet} {fields : List (String × FieldValue)}
    (hs : step s (.write i key time tags fields) = some t) :
    RowOrder t ∧ s.written ⊆ t.written := by
  obtain rfl := Option.some.inj hs
  refine ⟨⟨?_, ?_, ?_⟩, List.subset_append_left _ _⟩
  · simp only [List.map_append, List.map_cons, List.map_nil, List.length_append,
      List.length_singleton, List.range_succ]
    exact congrArg (· ++ [s.written.length]) h.numbered
  · intro j
    by_cases hj : j = i
    · subst hj
      simp only [State.setNode, Function.update_self, List.pairwise_append]
      refine ⟨h.sorted j, List.pairwise_singleton _ _, ?_⟩
      intro p hp q hq
      rw [List.mem_singleton.mp hq]
      exact h.lt (h.known j hp)
    · simpa [State.setNode, hj] using h.sorted j
  · intro j p hp
    by_cases hj : j = i
    · subst hj
      simp only [State.setNode, Function.update_self] at hp
      rcases List.mem_append.mp hp with hold | hnew
      · exact List.mem_append_left _ (h.known j hold)
      · exact List.mem_append_right _ hnew
    · simp only [State.setNode, Function.update_of_ne hj] at hp
      exact List.mem_append_left _ (h.known j hp)

theorem RowOrder.replay [DecidableEq ι] (h : RowOrder s) {i : ι}
    {replayed : List (TableKey × Row)} (hs : step s (.restart i replayed) = some t) :
    RowOrder t ∧ s.written ⊆ t.written := by
  simp only [step, restart] at hs
  split at hs
  · next hok =>
      obtain rfl := Option.some.inj hs
      refine ⟨⟨h.numbered, ?_, ?_⟩, fun _ hp => hp⟩
      · intro j
        by_cases hj : j = i
        · subst hj
          simpa [State.setNode] using List.pairwise_map.mp hok.1
        · simpa [State.setNode, hj] using h.sorted j
      · intro j p hp
        by_cases hj : j = i
        · subst hj
          simp only [State.setNode, Function.update_self] at hp
          exact hok.2 p hp
        · simp only [State.setNode, Function.update_of_ne hj] at hp
          exact h.known j hp
  · cases hs

theorem RowOrder.keep (h : RowOrder s) (hkeep : KeepsRows s t) :
    RowOrder t ∧ s.written ⊆ t.written := by
  refine ⟨⟨?_, ?_, ?_⟩, ?_⟩
  · rw [hkeep.written]
    exact h.numbered
  · exact fun i => (h.sorted i).sublist (hkeep.buffer i)
  · intro i p hp
    rw [hkeep.written]
    exact h.known i ((hkeep.buffer i).subset hp)
  · rw [hkeep.written]
    exact fun _ hp => hp

theorem RowOrder.arrives [DecidableEq ι] (h : RowOrder s) (harrives : Arrives s t a)
    (hs : step s a = some t) : RowOrder t ∧ s.written ⊆ t.written := by
  cases harrives with
  | write i key time tags fields => exact h.write hs
  | replay i replayed => exact h.replay hs
  | none hkeep => exact h.keep hkeep

end Arrival

section Files

variable {content content' : AbsPath → List Row} {written written' : List (TableKey × Row)}

/-- A row with the same primary key, written no earlier. -/
def Supersedes (r' r : Row) : Prop := r'.key = r.key ∧ r.arrival ≤ r'.arrival

/-- Some file of the table has the row or a later write of its key. -/
def Retains (content : AbsPath → List Row) (files : List FileMeta) (p : TableKey × Row) : Prop :=
  ∃ f ∈ files, f.key = p.1 ∧ ∃ r ∈ content (objectOf f), Supersedes r p.2

/-- One row for each primary key, all of one hour. -/
structure FileOk (content : AbsPath → List Row) (f : FileMeta) : Prop where
  nonempty : content (objectOf f) ≠ []
  nodup : ((content (objectOf f)).map Row.key).Nodup
  inHour : ∀ r ∈ content (objectOf f), r.hour = f.partition

theorem FileOk.of_piece {f : FileMeta} {rows : List Row} {hour : String}
    (h : PieceOf rows hour (content (objectOf f))) (hpartition : f.partition = hour) :
    FileOk content f :=
  ⟨h.nonempty, h.nodup, fun r hr => (h.inHour r hr).trans hpartition.symm⟩

structure BatchOk (written : List (TableKey × Row)) (b : FlushTable) : Prop where
  sorted : b.rows.Pairwise fun r r' => r.arrival < r'.arrival
  known : ∀ r ∈ b.rows, (b.key, r) ∈ written

/-- The files of a flush and the rows they are to store. -/
structure Stores (content : AbsPath → List Row) (files : List FileMeta)
    (rows : List (TableKey × Row)) : Prop where
  retained : ∀ p ∈ rows, Retains content files p
  live : ∀ f ∈ files, ∀ r ∈ content (objectOf f), (f.key, r) ∈ rows

def TaskOrder (content : AbsPath → List Row) (written : List (TableKey × Row)) : Task → Prop
  | .flush todo _ metas done =>
      (∀ b ∈ todo, BatchOk written b) ∧ done ⊆ written ∧ Stores content metas done
  | .compactCommit _ files output =>
      ∀ r ∈ rowsIn content files, ∃ r' ∈ content (objectOf output), Supersedes r' r
  | _ => True

theorem Retains.congr {files : List FileMeta} {p : TableKey × Row} (h : Retains content files p)
    (hcontent : ∀ g ∈ files, content' (objectOf g) = content (objectOf g)) :
    Retains content' files p := by
  obtain ⟨g, hg, hkey, r, hr, hlater⟩ := h
  exact ⟨g, hg, hkey, r, by rw [hcontent g hg]; exact hr, hlater⟩

theorem Retains.mono {files files' : List FileMeta} {p : TableKey × Row}
    (h : Retains content files p) (hsub : files ⊆ files') : Retains content files' p := by
  obtain ⟨g, hg, hrest⟩ := h
  exact ⟨g, hsub hg, hrest⟩

theorem Stores.append {files files' : List FileMeta} {rows rows' : List (TableKey × Row)}
    (h : Stores content files rows) (h' : Stores content files' rows') :
    Stores content (files ++ files') (rows ++ rows') := by
  constructor
  · intro p hp
    rcases List.mem_append.mp hp with hp | hp
    · exact (h.retained p hp).mono (List.subset_append_left _ _)
    · exact (h'.retained p hp).mono (List.subset_append_right _ _)
  · intro f hf r hr
    rcases List.mem_append.mp hf with hf | hf
    · exact List.mem_append_left _ (h.live f hf r hr)
    · exact List.mem_append_right _ (h'.live f hf r hr)

theorem Stores.congr {files : List FileMeta} {rows : List (TableKey × Row)}
    (h : Stores content files rows)
    (hcontent : ∀ f ∈ files, content' (objectOf f) = content (objectOf f)) :
    Stores content' files rows := by
  constructor
  · exact fun p hp => (h.retained p hp).congr hcontent
  · intro f hf r hr
    rw [hcontent f hf] at hr
    exact h.live f hf r hr

/-- The pieces of a batch store it: each key keeps its last write. -/
theorem Encoded.stores {table : FlushTable} {files : List FileMeta}
    (h : Encoded content table files [])
    (hsorted : table.rows.Pairwise fun r r' => r.arrival < r'.arrival) :
    Stores content files (table.rows.map fun r => (table.key, r)) := by
  have hsplit := h.split
  rw [List.append_nil] at hsplit
  have hpiece : ∀ f ∈ files, PieceOf table.rows f.partition (content (objectOf f)) := by
    intro f hf
    apply prepareOrdered_piece h.covered
    change (f.partition, content (objectOf f)) ∈ prepare table.columns table.rows
    rw [← hsplit]
    exact List.mem_map.mpr ⟨f, hf, rfl⟩
  constructor
  · rintro p hp
    obtain ⟨r, hr, rfl⟩ := List.mem_map.mp hp
    obtain ⟨rows, hrows⟩ := prepareOrdered_hour h.covered hr
    change (r.hour, rows) ∈ prepare table.columns table.rows at hrows
    rw [← hsplit] at hrows
    obtain ⟨f, hf, heq⟩ := List.mem_map.mp hrows
    obtain ⟨hpartition, _⟩ := Prod.mk.inj heq
    have hlast := (hpiece f hf).last r.key hpartition.symm
    cases hl : lastOf Row.key r.key table.rows with
    | none => exact absurd rfl (lastOf_eq_none.mp hl r hr)
    | some r' =>
        rw [hl] at hlast
        obtain ⟨hmem, hkey⟩ := lastOf_mem hlast
        have hordered : table.rows.Pairwise fun a b => a.key = b.key → a.arrival ≤ b.arrival := by
          refine hsorted.imp ?_
          exact fun hab _ => Nat.le_of_lt hab
        exact ⟨f, hf, h.key f hf, r', hmem, hkey, rank_le_lastOf hordered hl r hr rfl⟩
  · intro f hf r hr
    rw [h.key f hf]
    exact List.mem_map.mpr ⟨r, (hpiece f hf).subperm.subset hr, rfl⟩

/-- A merge in write order keeps the last write of each key of its inputs. -/
theorem merge_supersedes {files : List FileMeta} {output : FileMeta} {hour : String}
    (hfiles : ∀ f ∈ files, FileOk content f)
    (horder : inWriteOrder (files.map fun f => content (objectOf f)))
    (hpiece : PieceOf (rowsIn content files) hour (content (objectOf output)))
    (hhour : ∀ r ∈ rowsIn content files, r.hour = hour) :
    ∀ r ∈ rowsIn content files, ∃ r' ∈ content (objectOf output), Supersedes r' r := by
  intro r hr
  have hordered : (rowsIn content files).Pairwise fun a b =>
      a.key = b.key → a.arrival ≤ b.arrival := by
    rw [rowsIn, List.flatMap_def, List.pairwise_flatten]
    refine ⟨?_, horder⟩
    intro rows hrows
    obtain ⟨f, hf, rfl⟩ := List.mem_map.mp hrows
    have hnodup := (hfiles f hf).nodup
    rw [List.Nodup, List.pairwise_map] at hnodup
    exact hnodup.imp fun hne heq => absurd heq hne
  cases hl : lastOf Row.key r.key (rowsIn content files) with
  | none => exact absurd rfl (lastOf_eq_none.mp hl r hr)
  | some r' =>
      have hlast := hpiece.last r.key (hhour r hr)
      rw [hl] at hlast
      obtain ⟨hmem, hkey⟩ := lastOf_mem hlast
      exact ⟨r', hmem, hkey, rank_le_lastOf hordered hl r hr rfl⟩

theorem TaskOrder.transfer {log : List ManifestEntry} {T : Task} (h : TaskOrder content written T)
    (hT : TaskInv log content T) (hwritten : written ⊆ written')
    (hadded : ∀ f ∈ addedFiles log, content' (objectOf f) = content (objectOf f))
    (houts : ∀ f ∈ T.outputs, content' (objectOf f) = content (objectOf f)) :
    TaskOrder content' written' T := by
  cases T with
  | flush todo current metas done =>
      obtain ⟨htodo, hdone, hstores⟩ := h
      refine ⟨?_, fun p hp => hwritten (hdone hp), ?_⟩
      · exact fun b hb => ⟨(htodo b hb).sorted, fun r hr => hwritten ((htodo b hb).known r hr)⟩
      · exact hstores.congr fun f hf => houts f (List.mem_append_right _ hf)
  | compactCommit groups files output =>
      intro r hr
      rw [rowsIn_congr fun f hf => hadded f (hT.2.1.added hf)] at hr
      rw [houts output (List.mem_singleton_self _)]
      exact h r hr
  | _ => trivial

end Files

structure OrderInv (s : State ι) : Prop where
  rows : RowOrder s
  flushed : s.flushed ⊆ s.written
  task : ∀ i k T, s.task i k = some T → TaskOrder s.content s.written T
  file : ∀ f, (f ∈ addedFiles s.log ∨ ∃ i k, f ∈ outputsAt s i k) → FileOk s.content f
  stores : Stores s.content (listed s.log) s.flushed

section Step

variable {s t : State ι} {a : Action ι}

theorem snapshots_ok (h : RowOrder s) (i : ι) (columns : TableKey → List String) :
    ∀ b ∈ snapshots (s.node i).buffer columns, BatchOk s.written b := by
  intro b hb
  obtain ⟨key, _, rfl⟩ := List.mem_map.mp hb
  constructor
  · exact List.pairwise_map.mpr ((h.sorted i).sublist List.filter_sublist)
  · intro r hr
    obtain ⟨p, hp, rfl⟩ := List.mem_map.mp hr
    obtain ⟨hin, hkey⟩ := List.mem_filter.mp hp
    obtain rfl : p.1 = key := by simpa using hkey
    exact h.known i hin

theorem Opens.taskOrder {i : ι} {T' : Task} (hopens : Opens s i T') (h : OrderInv s) :
    TaskOrder s.content s.written T' := by
  cases hopens with
  | flush columns hcov =>
      refine ⟨snapshots_ok h.rows i columns, by simp, ?_, ?_⟩
      · exact fun p hp => by cases hp
      · exact fun f hf => by cases hf
  | _ => trivial

theorem Advances.taskOrder {T T' : Task} (hadv : Advances s T T')
    (h : TaskOrder s.content s.written T) : TaskOrder s.content s.written T' := by
  cases hadv with
  | tableFailed table todo current metas done =>
      exact ⟨fun b hb => h.1 b (List.mem_cons_of_mem _ hb), h.2⟩
  | _ => trivial

/-- What a task knows of the order of the rows it has just written. -/
theorem Puts.taskOrder {i : ι} {k seq : Nat} {T T' : Task} {tag : FileTag} {f : FileMeta}
    {rows : List Row} {log : List ManifestEntry} {content : AbsPath → List Row}
    {written : List (TableKey × Row)} (hputs : Puts i k seq a T tag f rows T')
    (hallowed : flushOrCompact a = true) (hT : TaskInv log content T)
    (horder : TaskOrder content written T) (hrows : content (objectOf f) = rows)
    (hadded : ∀ g ∈ addedFiles log, FileOk content g)
    (hmerge : ∀ groups files sets, T = .compactRead groups files [] sets → inWriteOrder sets) :
    TaskOrder content written T' ∧ FileOk content f := by
  have hpiece : ∀ {key columns batch partition pieces files},
      Encoded content ⟨key, columns, batch, (partition, rows) :: pieces⟩ files
        ((partition, rows) :: pieces) → f.partition = partition → FileOk content f := by
    intro key columns batch partition pieces files hencoded hpartition
    have hin : (partition, rows) ∈ prepare columns batch := by
      rw [← hencoded.split]
      simp
    rw [← hrows] at hin
    exact FileOk.of_piece (prepareOrdered_piece hencoded.covered hin) hpartition
  cases hputs with
  | piece key columns batch partition rows next pieces todo current metas done size =>
      have hencoded := hT.writing _ _ rfl
      refine ⟨⟨?_, horder.2⟩, hpiece hencoded rfl⟩
      intro b hb
      rcases List.mem_cons.mp hb with rfl | hb
      · have hhead := horder.1 _ List.mem_cons_self
        exact ⟨hhead.sorted, hhead.known⟩
      · exact horder.1 b (List.mem_cons_of_mem _ hb)
  | lastPiece key columns batch partition rows todo current metas done size =>
      have hencoded := hT.writing _ _ rfl
      obtain ⟨htodo, hdone, hstores⟩ := horder
      have hhead := htodo _ List.mem_cons_self
      have hlast := hencoded.next (f := outputMeta .fresh key partition rows (timeBounds rows).2
        seq size) rfl rfl hrows
      refine ⟨⟨fun b hb => htodo b (List.mem_cons_of_mem _ hb), ?_,
        hstores.append (hlast.stores hhead.sorted)⟩, hpiece hencoded rfl⟩
      intro p hp
      rcases List.mem_append.mp hp with hp | hp
      · exact hdone hp
      · obtain ⟨r, hr, rfl⟩ := List.mem_map.mp hp
        exact hhead.known r hr
  | merge groups f₀ files sets c merged size hcov hmerged =>
      obtain ⟨_, hfiles, read, hsplit, hsets⟩ := hT
      obtain rfl : f₀ :: files = read := by simpa using hsplit
      obtain ⟨hour, hpieceOf, hhour⟩ := mergeFiles_piece hcov hmerged
      have hflat : sets.flatten = rowsIn content (f₀ :: files) := by
        rw [hsets, rowsIn, List.flatMap_def]
      rw [hflat, ← hrows] at hpieceOf
      rw [hflat] at hhour
      have hinputs : ∀ g ∈ f₀ :: files, FileOk content g :=
        fun g hg => hadded g (hfiles.added hg)
      refine ⟨?_, ?_⟩
      · refine merge_supersedes hinputs ?_ hpieceOf hhour
        rw [← hsets]
        exact hmerge _ _ _ rfl
      · refine FileOk.of_piece hpieceOf ?_
        obtain ⟨r, hr⟩ := List.exists_mem_of_ne_nil _ (hinputs f₀ List.mem_cons_self).nonempty
        have hin : r ∈ rowsIn content (f₀ :: files) :=
          List.mem_flatMap.mpr ⟨f₀, List.mem_cons_self, hr⟩
        exact ((hinputs f₀ List.mem_cons_self).inHour r hr).symm.trans (hhour r hin)
  | rewrite => cases hallowed

/-- A step that leaves the log, the rows stored so far and all objects in use
alone. -/
theorem OrderInv.frame (h : OrderInv s) (hrows : RowOrder t) (hwritten : s.written ⊆ t.written)
    (hcontent : t.content = s.content) (hlog : t.log = s.log) (hflushed : t.flushed = s.flushed)
    (htask : ∀ j l T', t.task j l = some T' → TaskOrder t.content t.written T')
    (houts : ∀ j l, (outputsAt t j l).Sublist (outputsAt s j l)) : OrderInv t := by
  refine ⟨hrows, ?_, htask, ?_, ?_⟩
  · rw [hflushed]
    exact fun p hp => hwritten (h.flushed hp)
  · rw [hcontent, hlog]
    rintro f (hf | ⟨j, l, hf⟩)
    · exact h.file f (.inl hf)
    · exact h.file f (.inr ⟨j, l, (houts j l).subset hf⟩)
  · rw [hcontent, hlog, hflushed]
    exact h.stores

theorem OrderInv.put (h : OrderInv s) (hinv : Inv s) (hok : mergesInOrder s a) {i : ι} {k : Nat}
    {T T' : Task} {tag : FileTag} {f : FileMeta} {rows : List Row} (hkeep : KeepsRows s t)
    (htask : s.task i k = some T) (hputs : Puts i k (s.node i).fileSeq a T tag f rows T')
    (hset : TaskSet s t i k (some T')) (hlog : t.log = s.log) (hflushed : t.flushed = s.flushed)
    (hcontent : t.content = Function.update s.content tag.path rows) : OrderInv t := by
  obtain ⟨hfresh, hallowed, hsets⟩ := hok
  have hunused := hfresh.unused hinv (hputs.putTag_eq htask)
  have hadded : ∀ g ∈ addedFiles s.log, t.content (objectOf g) = s.content (objectOf g) := by
    intro g hg
    rw [hcontent, Function.update_of_ne]
    exact fun heq => hunused (.inl ⟨g, hg, heq⟩)
  have houts : ∀ j l, ∀ g ∈ outputsAt s j l, t.content (objectOf g) = s.content (objectOf g) := by
    intro j l g hg
    rw [hcontent, Function.update_of_ne]
    exact fun heq => hunused (.inr (.inl ⟨j, l, g, hg, heq⟩))
  have hnew : t.content (objectOf f) = rows := by
    rw [hcontent, hputs.object, Function.update_self]
  obtain ⟨hrows, hwritten⟩ := h.rows.keep hkeep
  have hfile : ∀ g, (g ∈ addedFiles s.log ∨ ∃ j l, g ∈ outputsAt s j l) → FileOk t.content g := by
    intro g hg
    have hsame : t.content (objectOf g) = s.content (objectOf g) := by
      rcases hg with hg | ⟨j, l, hg⟩
      · exact hadded g hg
      · exact houts j l g hg
    obtain ⟨hnonempty, hnodup, hhour⟩ := h.file g hg
    exact ⟨hsame ▸ hnonempty, hsame ▸ hnodup, hsame ▸ hhour⟩
  have htransfer : ∀ j l T₀, s.task j l = some T₀ →
      TaskOrder t.content t.written T₀ ∧ TaskInv s.log t.content T₀ := by
    intro j l T₀ hT₀
    have hout : ∀ g ∈ T₀.outputs, t.content (objectOf g) = s.content (objectOf g) := by
      rw [← outputsAt_some hT₀]
      exact houts j l
    have hT := hinv.task j l T₀ hT₀
    exact ⟨(h.task j l T₀ hT₀).transfer hT hwritten hadded hout,
      hT.transfer (fun _ hg => hg) hadded hout⟩
  obtain ⟨horder, hT⟩ := htransfer i k T htask
  have hmerge : ∀ groups files sets, T = .compactRead groups files [] sets →
      inWriteOrder sets := by
    rintro groups files sets rfl
    cases hputs with
    | merge groups f₀ files sets c merged size hcov hmerged =>
        exact hsets sets (by simp [mergeSets, htask])
  obtain ⟨hnewTask, hnewFile⟩ := hputs.taskOrder hallowed hT horder hnew
    (fun g hg => hfile g (.inl hg)) hmerge
  refine ⟨hrows, ?_, ?_, ?_, ?_⟩
  · rw [hflushed]
    exact fun p hp => hwritten (h.flushed hp)
  · intro j l T₁ hT₁
    by_cases hjl : j = i ∧ l = k
    · obtain ⟨rfl, rfl⟩ := hjl
      obtain rfl := Option.some.inj (hset.1.symm.trans hT₁)
      exact hnewTask
    · exact (htransfer j l T₁ (hset.2 j l hjl ▸ hT₁)).1
  · rintro g (hg | ⟨j, l, hg⟩)
    · exact hfile g (.inl (hlog ▸ hg))
    · by_cases hjl : j = i ∧ l = k
      · obtain ⟨rfl, rfl⟩ := hjl
        rw [outputsAt_some hset.1] at hg
        rcases List.mem_cons.mp (hputs.outputs.mem_iff.mp hg) with rfl | hold
        · exact hnewFile
        · exact hfile g (.inr ⟨j, l, by rw [outputsAt_some htask]; exact hold⟩)
      · exact hfile g (.inr ⟨j, l, hset.outputs j l hjl ▸ hg⟩)
  · rw [hlog, hflushed]
    exact h.stores.congr fun g hg => hadded g (mem_addedFiles hg)

theorem Stores.of_mem {content : AbsPath → List Row} {files files' : List FileMeta}
    {rows : List (TableKey × Row)} (h : Stores content files rows)
    (hmem : ∀ f, f ∈ files' ↔ f ∈ files) : Stores content files' rows := by
  constructor
  · exact fun p hp => (h.retained p hp).mono fun f hf => (hmem f).mpr hf
  · exact fun f hf => h.live f ((hmem f).mp hf)

theorem Stores.merge {files : List FileMeta} {output : FileMeta} {e : ManifestEntry}
    (hinv : Inv s) (h : Stores s.content (listed s.log) s.flushed)
    (hmem : ∀ f, f ∈ listed (s.log ++ [e]) ↔
      (f ∈ listed s.log ∧ f.path ∉ files.map FileMeta.path) ∨ f = output)
    (hgroup : GroupOf s.log files) (hmerge : MergeOf s.content files output)
    (hlisted : files ⊆ listed s.log)
    (hlater : ∀ r ∈ rowsIn s.content files, ∃ r' ∈ s.content (objectOf output),
      Supersedes r' r) : Stores s.content (listed (s.log ++ [e])) s.flushed := by
  have hkey : ∀ f ∈ files, f.key = output.key := by
    intro f hf
    have hsame := hmerge.group f hf
    simp only [groupKey, Prod.mk.injEq] at hsame
    rw [FileMeta.key, hsame.1, hsame.2.1, FileMeta.key]
  constructor
  · intro p hp
    obtain ⟨f, hf, hfkey, r, hr, hsup⟩ := h.retained p hp
    by_cases hpath : f.path ∈ files.map FileMeta.path
    · obtain ⟨g, hg, heq⟩ := List.mem_map.mp hpath
      have hobject : objectOf g = objectOf f := by rw [objectOf, heq, objectOf]
      obtain rfl := hinv.owned.added_inj (hgroup.added hg) (mem_addedFiles hf) hobject
      obtain ⟨r', hr', hsup'⟩ := hlater r (List.mem_flatMap.mpr ⟨g, hg, hr⟩)
      exact ⟨output, (hmem output).mpr (.inr rfl), (hkey g hg).symm.trans hfkey, r', hr',
        hsup'.1.trans hsup.1, hsup.2.trans hsup'.2⟩
    · exact ⟨f, (hmem f).mpr (.inl ⟨hf, hpath⟩), hfkey, r, hr, hsup⟩
  · intro f hf r hr
    rcases (hmem f).mp hf with ⟨hold, _⟩ | rfl
    · exact h.live f hold r hr
    · obtain ⟨hour, hpiece⟩ := hmerge.merged
      obtain ⟨g, hg, hrow⟩ := List.mem_flatMap.mp (hpiece.subperm.subset hr)
      rw [← hkey g hg]
      exact h.live g (hlisted hg) r hrow

/-- What the catalog stores after a flush or a merge. -/
theorem Commits.stores {i : ι} {k seq : Nat} {T : Task} {args : CommitArgs}
    {removed : List String} {stored : List (TableKey × Row)} {o : Option Task}
    (hcommits : Commits i k s.log a T args removed stored o)
    (hallowed : flushOrCompact a = true) (hinv : Inv s) (h : OrderInv s)
    (htask : s.task i k = some T) :
    stored ⊆ s.written ∧
      Stores s.content (listed (s.log ++ [args.entry seq])) (s.flushed ++ stored) := by
  have hT := hinv.task i k T htask
  have horder := h.task i k T htask
  cases hcommits with
  | flush current metas done =>
      refine ⟨horder.2.1, (h.stores.append horder.2.2).of_mem ?_⟩
      intro f
      rw [mem_listed_snoc, List.mem_append]
      simp [CommitArgs.entry, droppedBy]
  | compact seen groups files output hpresent =>
      obtain ⟨_, hgroup, hmerge⟩ := hT
      refine ⟨by simp, ?_⟩
      rw [List.append_nil]
      refine h.stores.merge hinv ?_ hgroup hmerge ?_ horder
      · intro f
        rw [mem_listed_snoc]
        simp [CommitArgs.entry, droppedBy]
      · exact fun f hf => listed_of_path hinv (hgroup.added hf) (hpresent f hf)
  | rewriteDrop | rewrite | retention | drop => cases hallowed

theorem Commits.taskOrder {i : ι} {k : Nat} {log : List ManifestEntry} {T : Task}
    {args : CommitArgs} {removed : List String} {stored : List (TableKey × Row)}
    {o : Option Task} {content : AbsPath → List Row} {written : List (TableKey × Row)}
    (hcommits : Commits i k log a T args removed stored o) :
    ∀ T', o = some T' → TaskOrder content written T' := by
  cases hcommits <;> rintro _ ⟨⟩ <;> trivial

theorem OrderInv.step [DecidableEq ι] (h : OrderInv s) (hinv : Inv s) (hok : mergesInOrder s a)
    (hs : Cluster.step s a = some t) : OrderInv t := by
  have hsame : t.written = s.written → t.content = s.content → ∀ T,
      TaskOrder s.content s.written T → TaskOrder t.content t.written T := by
    intro hwritten hcontent T hT
    rw [hwritten, hcontent]
    exact hT
  cases step_effect hs with
  | quiet harrives hun hlog hflushed htask hdeferred =>
      obtain ⟨hrows, hwritten⟩ := h.rows.arrives harrives hs
      have hold : ∀ j l T', t.task j l = some T' →
          TaskOrder s.content s.written T' ∧ TaskInv s.log s.content T' ∧
            T'.outputs.Sublist (outputsAt s j l) := by
        intro j l T' hT'
        rcases htask j l T' hT' with hT | hopens | ⟨T, hT, hadv⟩
        · exact ⟨h.task j l T' hT, hinv.task j l T' hT, by rw [outputsAt_some hT]⟩
        · obtain ⟨hinvT, hnone⟩ := hopens.taskInv hinv
          exact ⟨hopens.taskOrder h, hinvT, by rw [hnone]; exact List.nil_sublist _⟩
        · rw [outputsAt_some hT]
          exact ⟨hadv.taskOrder (h.task j l T hT), hadv.taskInv hinv (hinv.task j l T hT)⟩
      refine h.frame hrows hwritten hun.content hlog hflushed ?_ ?_
      · intro j l T' hT'
        obtain ⟨horder, hT, _⟩ := hold j l T' hT'
        rw [hun.content]
        exact horder.transfer hT hwritten (fun _ _ => rfl) fun _ _ => rfl
      · exact fun j l => outputsAt_sublist fun T' hT' => (hold j l T' hT').2.2
  | put i k T T' tag f rows hkeep htask hputs hset hlog hflushed hobjects hnew hcontent
      hdeferred =>
      exact h.put hinv hok hkeep htask hputs hset hlog hflushed hcontent
  | commit i k T args removed stored o hkeep htask hcommits hset hun hlog hflushed hdeferred =>
      obtain ⟨hrows, hwritten⟩ := h.rows.keep hkeep
      obtain ⟨hstored, hstores⟩ := hcommits.stores hok.2.1 hinv h htask
      obtain ⟨hadds, hleft⟩ := hcommits.outputs
      rw [← outputsAt_some htask] at hadds
      refine ⟨hrows, ?_, ?_, ?_, ?_⟩
      · rw [hflushed]
        intro p hp
        rcases List.mem_append.mp hp with hp | hp
        · exact hwritten (h.flushed hp)
        · exact hwritten (hstored hp)
      · intro j l T' hT'
        by_cases hjl : j = i ∧ l = k
        · obtain ⟨rfl, rfl⟩ := hjl
          exact hcommits.taskOrder T' (hset.1 ▸ hT')
        · exact hsame hkeep.written hun.content T' (h.task j l T' (hset.2 j l hjl ▸ hT'))
      · rw [hun.content, hlog, addedFiles_snoc]
        rintro f (hf | ⟨j, l, hf⟩)
        · rcases List.mem_append.mp hf with hf | hf
          · exact h.file f (.inl hf)
          · exact h.file f (.inr ⟨i, k, hadds.subset hf⟩)
        · exact h.file f (.inr ⟨j, l, (hset.cleared (hset.noOutputs hleft) j l).subset hf⟩)
      · rw [hun.content, hlog, hflushed]
        exact hstores
  | tombstone i tombstone hact hkeep hun htask hlog hflushed hdeferred =>
      subst hact
      exact absurd hok.2.1 (by simp [flushOrCompact])
  | stale i k groups files output hkeep htask hset hun hlog hflushed hdeferred =>
      obtain ⟨hrows, hwritten⟩ := h.rows.keep hkeep
      refine h.frame hrows hwritten hun.content hlog hflushed ?_
        (hset.cleared (outputsAt_some hset.1))
      intro j l T' hT'
      by_cases hjl : j = i ∧ l = k
      · obtain ⟨rfl, rfl⟩ := hjl
        obtain rfl := Option.some.inj (hset.1.symm.trans hT')
        trivial
      · exact hsame hkeep.written hun.content T' (h.task j l T' (hset.2 j l hjl ▸ hT'))
  | delete i k p due hkeep htask hset hobjects hputs hcontent hlog hflushed hdeferred =>
      obtain ⟨hrows, hwritten⟩ := h.rows.keep hkeep
      refine h.frame hrows hwritten hcontent hlog hflushed ?_
        (hset.cleared (outputsAt_some hset.1))
      intro j l T' hT'
      by_cases hjl : j = i ∧ l = k
      · obtain ⟨rfl, rfl⟩ := hjl
        obtain rfl := Option.some.inj (hset.1.symm.trans hT')
        trivial
      · exact hsame hkeep.written hcontent T' (h.task j l T' (hset.2 j l hjl ▸ hT'))

theorem orderInv_initial : OrderInv (initial : State ι) where
  rows := ⟨rfl, fun _ => List.Pairwise.nil, fun _ _ hp => by cases hp⟩
  flushed := fun _ hp => by cases hp
  task := by
    rintro i k T ⟨⟩
  file := by
    rintro f (hf | ⟨_, _, hf⟩)
    · cases hf
    · cases hf
  stores := by
    constructor
    · exact fun _ hp => by cases hp
    · exact fun _ hf => by cases hf

theorem OrderInv.run [DecidableEq ι] {acts : List (Action ι)}
    (run : Run Cluster.step mergesInOrder initial acts s) : Inv s ∧ OrderInv s := by
  refine run.invariant (P := fun s => Inv s ∧ OrderInv s) ?_ ⟨inv_initial, orderInv_initial⟩
  intro s a t h hok hs
  exact ⟨h.1.step hok.1 hs, h.2.step h.1 hok hs⟩

end Step

section Partition

variable {s : State ι} {db table hour : String} {f : FileMeta}

theorem mem_storedRows (h : OrderInv s) {key : TableKey} {r : Row} :
    r ∈ storedRows s key ↔ (key, r) ∈ s.flushed := by
  simp only [storedRows, tableRows, List.mem_map, List.mem_filter, List.contains_iff_mem,
    decide_eq_true_eq]
  constructor
  · rintro ⟨p, ⟨⟨_, hp⟩, rfl⟩, rfl⟩
    exact hp
  · intro hr
    exact ⟨(key, r), ⟨⟨h.flushed hr, hr⟩, rfl⟩, rfl⟩

theorem storedRows_sorted (h : OrderInv s) (key : TableKey) :
    (storedRows s key).Pairwise fun r r' => r.arrival < r'.arrival := by
  rw [storedRows, tableRows, List.pairwise_map]
  exact (h.rows.written_sorted.sublist List.filter_sublist).sublist List.filter_sublist

theorem eq_of_arrival {rows : List Row} (h : rows.Pairwise fun r r' => r.arrival < r'.arrival)
    {a b : Row} (ha : a ∈ rows) (hb : b ∈ rows) (heq : a.arrival = b.arrival) : a = b := by
  have hnodup : (rows.map Row.arrival).Nodup := by
    rw [List.Nodup, List.pairwise_map]
    exact h.imp fun hlt => Nat.ne_of_lt hlt
  exact List.inj_on_of_nodup_map hnodup ha hb heq

/-- The only file of a partition has, for each key of the hour, the last row
stored. -/
theorem lastOf_only_file (h : OrderInv s)
    (hone : (listed s.log).filter (fun f => groupKey f = (db, table, hour)) = [f])
    {k : RowKey} (hk : hourPartition k.1 = hour) :
    lastOf Row.key k (s.content (objectOf f)) =
      lastOf Row.key k (storedRows s (db, table)) := by
  have hf : f ∈ listed s.log ∧ groupKey f = (db, table, hour) := by
    have hin : f ∈ (listed s.log).filter fun f => groupKey f = (db, table, hour) := by
      rw [hone]
      exact List.mem_singleton_self _
    simpa using List.mem_filter.mp hin
  have hkeyOf : f.key = (db, table) := by
    have := hf.2
    simp only [groupKey, Prod.mk.injEq] at this
    rw [FileMeta.key, this.1, this.2.1]
  have hstored : ∀ r ∈ s.content (objectOf f), r ∈ storedRows s (db, table) := by
    intro r hr
    rw [mem_storedRows h, ← hkeyOf]
    exact h.stores.live f hf.1 r hr
  have hsorted := storedRows_sorted h (db, table)
  cases hl : lastOf Row.key k (storedRows s (db, table)) with
  | none =>
      rw [lastOf_eq_none] at hl ⊢
      exact fun r hr => hl r (hstored r hr)
  | some r =>
      obtain ⟨hr, rfl⟩ := lastOf_mem hl
      obtain ⟨g, hg, hgkey, r', hr', hsame, hle⟩ := h.stores.retained _ ((mem_storedRows h).mp hr)
      have hgroup : groupKey g = (db, table, hour) := by
        have hpartition : g.partition = hour := by
          have htime : r'.time = r.time := congrArg Prod.fst hsame
          rw [← (h.file g (.inl (mem_addedFiles hg))).inHour r' hr', Row.hour, htime]
          exact hk
        obtain ⟨hdb, htable⟩ := Prod.mk.inj hgkey
        rw [groupKey, hdb, htable, hpartition]
      have hgf : g = f := by
        have hin : g ∈ (listed s.log).filter fun f => groupKey f = (db, table, hour) :=
          List.mem_filter.mpr ⟨hg, by simpa using hgroup⟩
        rw [hone] at hin
        exact List.mem_singleton.mp hin
      subst hgf
      have hordered : (storedRows s (db, table)).Pairwise fun a b =>
          a.key = b.key → a.arrival ≤ b.arrival := by
        refine hsorted.imp ?_
        exact fun hab _ => Nat.le_of_lt hab
      have hge := rank_le_lastOf hordered hl r' (hstored r' hr') hsame
      obtain rfl := eq_of_arrival hsorted (hstored r' hr') hr (Nat.le_antisymm hge hle)
      exact lastOf_of_mem (h.file g (.inl (mem_addedFiles hg))).nodup hr'

/-- In a run of flushes and compactions whose writes are fresh and whose merges
take their inputs in write order, the only file of a partition holds exactly
what one flush of all rows stored so far, in write order, would put there. -/
theorem merged_as_one_batch [DecidableEq ι] {acts : List (Action ι)}
    (run : Run step mergesInOrder initial acts s)
    (hone : (listed s.log).filter (fun f => groupKey f = (db, table, hour)) = [f])
    (columns : List String)
    (hcov : ∀ r ∈ storedRows s (db, table), (Clustering.mk none columns).covers r) :
    ∃ rows piece, s.objects (abs f.path) = some rows ∧
      (hour, piece) ∈ prepare columns (storedRows s (db, table)) ∧ rows.Perm piece := by
  obtain ⟨hinv, h⟩ := OrderInv.run run
  have hin : f ∈ (listed s.log).filter fun f => groupKey f = (db, table, hour) := by
    rw [hone]
    exact List.mem_singleton_self _
  obtain ⟨hf, hgroup⟩ := List.mem_filter.mp hin
  simp only [groupKey, decide_eq_true_eq, Prod.mk.injEq] at hgroup
  have hfile := h.file f (.inl (mem_addedFiles hf))
  obtain ⟨r, hr⟩ := List.exists_mem_of_ne_nil _ hfile.nonempty
  have hstored : r ∈ storedRows s (db, table) := by
    rw [mem_storedRows h, ← hgroup.1, ← hgroup.2.1]
    exact h.stores.live f hf r hr
  obtain ⟨piece, hpiece⟩ := prepareOrdered_hour hcov hstored
  rw [hfile.inHour r hr, hgroup.2.2] at hpiece
  have hpieceOf := prepareOrdered_piece hcov hpiece
  refine ⟨_, piece, hinv.stored f (.inl hf), hpiece, ?_⟩
  apply perm_of_lastOf hfile.nodup hpieceOf.nodup
  intro k
  by_cases hk : hourPartition k.1 = hour
  · rw [lastOf_only_file h hone hk, hpieceOf.last k hk]
  · -- neither has a row of another hour
    have hother : ∀ rows : List Row, (∀ x ∈ rows, x.hour = hour) →
        lastOf Row.key k rows = none := by
      intro rows hrows
      rw [lastOf_eq_none]
      rintro x hx rfl
      exact hk (hrows x hx)
    rw [hother _ hpieceOf.inHour, hother]
    exact fun x hx => (hfile.inHour x hx).trans hgroup.2.2

end Partition

def valueRow (time : Int) (value : String) (arrival : Nat) : Row :=
  ⟨time, untagged, [("v", .str value)], arrival⟩

def firstHour (s : State Unit) : List FileMeta :=
  (listed s.log).filter fun f => groupKey f = ("d", "m", "1970010100")

/-- A row, an update of it in a second file, and the merge of both. -/
def updateAndMerge : List (Action Unit) :=
  storeRow () 0 150 [("v", .str "old")] ++ storeRow () 0 150 [("v", .str "new")] ++
    mergeTwo () 1 ++ [.compactCommit () 1 2]

theorem updateAndMerge_keeps_update : ∃ s f rows piece,
    Run step mergesInOrder initial updateAndMerge s ∧ firstHour s = [f] ∧
      s.objects (abs f.path) = some rows ∧
      ("1970010100", piece) ∈ prepare [] [valueRow 150 "old" 0, valueRow 150 "new" 1] ∧
      rows.Perm piece := by
  obtain ⟨s, run, hs⟩ := exists_run_of_checkedRun step
    (fun s a => unseen s a ∧ flushOrCompact a = true ∧ ∀ sets ∈ mergeSets s a, inWriteOrder sets)
    (initial : State Unit) updateAndMerge
    (fun s => (firstHour s, storedRows s ("d", "m")))
    ([⟨"d", "m", "1970010100", "d/m/data/1970010100/c00000000000000000150-000002.parquet",
      1, 0, 150, 150⟩], [valueRow 150 "old" 0, valueRow 150 "new" 1]) (by decide +kernel)
  obtain ⟨hone, hstored⟩ := Prod.mk.inj hs
  have hordered := run.mono fun _ _ h => (⟨fresh_of_unseen h.1, h.2⟩ : mergesInOrder _ _)
  obtain ⟨rows, piece, hobject, hpiece, hperm⟩ := merged_as_one_batch hordered hone []
    (by rw [hstored]; decide)
  rw [hstored] at hpiece
  exact ⟨s, _, rows, piece, hordered, hone, hobject, hpiece, hperm⟩

/-- Three rows in one file and then a late update of the middle one: the file of
the update ends earlier, so its path comes first. -/
def lateUpdate : List (Action Unit) :=
  [.write () ("d", "m") 100 untagged [("v", .str "a")],
    .write () ("d", "m") 150 untagged [("v", .str "old")]] ++
  storeRow () 0 200 [("v", .str "b")] ++ storeRow () 0 150 [("v", .str "new")] ++
  mergeTwo () 1 ++ [.compactCommit () 1 2]

/-- The merge keeps the older write of the key. -/
theorem lateUpdate_keeps_older : ∃ s,
    Run step (fun s a => unseen s a ∧ flushOrCompact a = true) initial lateUpdate s ∧
      ∃ f rows, firstHour s = [f] ∧ s.objects (abs f.path) = some rows ∧
        lastOf Row.key (150, untagged) rows = some (valueRow 150 "old" 1) ∧
        lastOf Row.key (150, untagged) (storedRows s ("d", "m")) =
          some (valueRow 150 "new" 3) := by
  obtain ⟨s, run, hs⟩ := exists_run_of_checkedRun step
    (fun s a => unseen s a ∧ flushOrCompact a = true) (initial : State Unit) lateUpdate
    (fun s => (firstHour s, (firstHour s).map fun f => s.objects (abs f.path),
      lastOf Row.key (150, untagged) (storedRows s ("d", "m"))))
    ([⟨"d", "m", "1970010100", "d/m/data/1970010100/c00000000000000000200-000002.parquet",
      3, 0, 100, 200⟩],
      [some [valueRow 100 "a" 0, valueRow 150 "old" 1, valueRow 200 "b" 2]],
      some (valueRow 150 "new" 3)) (by decide +kernel)
  obtain ⟨hone, hrest⟩ := Prod.mk.inj hs
  obtain ⟨hobjects, hstored⟩ := Prod.mk.inj hrest
  rw [hone, List.map_cons, List.cons.injEq] at hobjects
  exact ⟨s, run, _, _, hone, hobjects.1, by decide, hstored⟩

end TimeLake.Cluster
