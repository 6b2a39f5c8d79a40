import TimeLake.Cluster.Ownership

/-!
The invariant of the cluster. What a task holds between two steps is true of
the log and of the objects: the inputs of a merge are files of the log and the
rows read so far are theirs, an output holds what its task was to write, and
the paths waiting to be removed name files of the log. It is kept by every step
that writes no object in use.
-/

namespace TimeLake.Cluster

open TimeLake.Library TimeLake.Catalog TimeLake.Rows TimeLake.Store

variable {ι : Type}

section Tasks

variable {log log' : List ManifestEntry} {content content' : AbsPath → List Row}

/-- The files are the first pieces of the table's batch; `pieces` are the
others. -/
structure Encoded (content : AbsPath → List Row) (table : FlushTable) (files : List FileMeta)
    (pieces : List (String × List Row)) : Prop where
  covered : ∀ r ∈ table.rows, (Clustering.mk none table.columns).covers r
  key : ∀ f ∈ files, f.key = table.key
  split : (files.map fun f => (f.partition, content (objectOf f))) ++ pieces =
    prepare table.columns table.rows

/-- The tables a flush has finished, each with its files, and the one it is
writing. -/
structure FlushInv (content : AbsPath → List Row) (todo : List FlushTable)
    (current metas : List FileMeta) (done : List (TableKey × Row)) : Prop where
  finished : ∃ tables : List (FlushTable × List FileMeta),
    metas = tables.flatMap Prod.snd ∧
    done = tables.flatMap (fun b => b.1.rows.map fun r => (b.1.key, r)) ∧
    ∀ b ∈ tables, Encoded content b.1 b.2 []
  writing : ∀ table rest, todo = table :: rest → Encoded content table current table.pieces
  waiting : ∀ table rest, todo = table :: rest → ∀ b ∈ rest, Encoded content b [] b.pieces

/-- A group of files a merge may take: files of the log in one partition. -/
structure GroupOf (log : List ManifestEntry) (files : List FileMeta) : Prop where
  nonempty : files ≠ []
  nodup : files.Nodup
  added : files ⊆ addedFiles log
  one : ∀ f ∈ files, ∀ g ∈ files, groupKey f = groupKey g

def rowsIn (content : AbsPath → List Row) (files : List FileMeta) : List Row :=
  files.flatMap fun f => content (objectOf f)

/-- The output holds the merge of the files. -/
structure MergeOf (content : AbsPath → List Row) (files : List FileMeta) (output : FileMeta) :
    Prop where
  group : ∀ f ∈ files, groupKey f = groupKey output
  merged : ∃ hour, PieceOf (rowsIn content files) hour (content (objectOf output))

def TaskInv (log : List ManifestEntry) (content : AbsPath → List Row) : Task → Prop
  | .flush todo current metas done => FlushInv content todo current metas done
  | .compactNext groups => ∀ g ∈ groups, GroupOf log g
  | .compactRead groups files rest sets =>
      (∀ g ∈ groups, GroupOf log g) ∧ GroupOf log files ∧
        ∃ read, files = read ++ rest ∧ sets = read.map fun f => content (objectOf f)
  | .compactCommit groups files output =>
      (∀ g ∈ groups, GroupOf log g) ∧ GroupOf log files ∧ MergeOf content files output
  | .rewriteNext _ todo _ => todo ⊆ addedFiles log
  | .rewriteDrop _ todo _ input => todo ⊆ addedFiles log ∧ input ∈ addedFiles log
  | .rewritePut _ todo _ input kept =>
      todo ⊆ addedFiles log ∧ input ∈ addedFiles log ∧ kept.Subperm (content (objectOf input))
  | .rewriteCommit _ todo _ input output =>
      todo ⊆ addedFiles log ∧ input ∈ addedFiles log ∧ groupKey output = groupKey input ∧
        (content (objectOf output)).Subperm (content (objectOf input))
  | .retention remove => ∀ p ∈ remove, ∃ f ∈ addedFiles log, f.path = p
  | .drop db table paths =>
      ∀ p ∈ paths, ∃ f ∈ addedFiles log, f.path = p ∧ f.key = (db, table)
  | .gc _ => True

theorem Encoded.transfer {table : FlushTable} {files : List FileMeta}
    {pieces : List (String × List Row)} (h : Encoded content table files pieces)
    (hfiles : ∀ f ∈ files, content' (objectOf f) = content (objectOf f)) :
    Encoded content' table files pieces := by
  refine ⟨h.covered, h.key, ?_⟩
  rw [← h.split]
  congr 1
  apply List.map_congr_left
  intro f hf
  rw [hfiles f hf]

theorem FlushInv.transfer {todo : List FlushTable} {current metas : List FileMeta}
    {done : List (TableKey × Row)} (h : FlushInv content todo current metas done)
    (houts : ∀ f ∈ current ++ metas, content' (objectOf f) = content (objectOf f)) :
    FlushInv content' todo current metas done := by
  refine ⟨?_, ?_, ?_⟩
  · obtain ⟨tables, rfl, hdone, hfinished⟩ := h.finished
    refine ⟨tables, rfl, hdone, ?_⟩
    intro b hb
    refine (hfinished b hb).transfer ?_
    intro f hf
    exact houts f (List.mem_append_right _ (List.mem_flatMap.mpr ⟨b, hb, hf⟩))
  · intro table rest htodo
    exact (h.writing table rest htodo).transfer
      fun g hg => houts g (List.mem_append_left _ hg)
  · intro table rest htodo b hb
    exact (h.waiting table rest htodo b hb).transfer fun _ hf => by cases hf

theorem GroupOf.mono {files : List FileMeta} (h : GroupOf log files)
    (hlog : addedFiles log ⊆ addedFiles log') : GroupOf log' files :=
  ⟨h.nonempty, h.nodup, fun _ hf => hlog (h.added hf), h.one⟩

theorem rowsIn_congr {files : List FileMeta}
    (h : ∀ f ∈ files, content' (objectOf f) = content (objectOf f)) :
    rowsIn content' files = rowsIn content files := by
  unfold rowsIn
  rw [List.flatMap_def, List.flatMap_def, List.map_congr_left h]

/-- A task keeps its invariant while the log grows and neither the files of the
log nor its own outputs change. -/
theorem TaskInv.transfer {T : Task} (h : TaskInv log content T)
    (hlog : addedFiles log ⊆ addedFiles log')
    (hadded : ∀ f ∈ addedFiles log, content' (objectOf f) = content (objectOf f))
    (houts : ∀ f ∈ T.outputs, content' (objectOf f) = content (objectOf f)) :
    TaskInv log' content' T := by
  cases T with
  | flush todo current metas done => exact FlushInv.transfer h houts
  | compactNext groups => exact fun g hg => (h g hg).mono hlog
  | compactRead groups files rest sets =>
      obtain ⟨hgroups, hfiles, read, hsplit, hsets⟩ := h
      refine ⟨fun g hg => (hgroups g hg).mono hlog, hfiles.mono hlog, read, hsplit, ?_⟩
      rw [hsets]
      apply List.map_congr_left
      intro f hf
      have hin : f ∈ files := by
        rw [hsplit]
        exact List.mem_append_left _ hf
      exact (hadded f (hfiles.added hin)).symm
  | compactCommit groups files output =>
      obtain ⟨hgroups, hfiles, hmerge⟩ := h
      refine ⟨fun g hg => (hgroups g hg).mono hlog, hfiles.mono hlog, hmerge.group, ?_⟩
      rw [rowsIn_congr fun f hf => hadded f (hfiles.added hf),
          houts output (by simp [Task.outputs])]
      exact hmerge.merged
  | rewriteNext ts todo n => exact fun f hf => hlog (h hf)
  | rewriteDrop ts todo n input => exact ⟨fun f hf => hlog (h.1 hf), hlog h.2⟩
  | rewritePut ts todo n input kept =>
      obtain ⟨htodo, hinput, hkept⟩ := h
      exact ⟨fun f hf => hlog (htodo hf), hlog hinput, by rw [hadded input hinput]; exact hkept⟩
  | rewriteCommit ts todo n input output =>
      obtain ⟨htodo, hinput, hkey, hsub⟩ := h
      refine ⟨fun f hf => hlog (htodo hf), hlog hinput, hkey, ?_⟩
      rw [hadded input hinput, houts output (by simp [Task.outputs])]
      exact hsub
  | retention remove =>
      intro p hp
      obtain ⟨f, hf, hpath⟩ := h p hp
      exact ⟨f, hlog hf, hpath⟩
  | drop db table paths =>
      intro p hp
      obtain ⟨f, hf, hpath⟩ := h p hp
      exact ⟨f, hlog hf, hpath⟩
  | gc due => trivial

end Tasks

structure Inv (s : State ι) : Prop where
  owned : Owned s.log (outputsAt s) (Deferred s)
  written : ∀ q, InUse s q → ∃ tag ∈ s.puts, tag.path = q
  task : ∀ i k T, s.task i k = some T → TaskInv s.log s.content T
  object : ∀ q rows, s.objects q = some rows → rows = s.content q
  stored : ∀ f, (f ∈ listed s.log ∨ ∃ i k, f ∈ outputsAt s i k) →
    s.objects (objectOf f) = some (s.content (objectOf f))

section Moves

variable {s : State ι} {i : ι} {T T' : Task}

theorem snapshot_added (s : State ι) (i : ι) : s.snapshot i ⊆ addedFiles s.log :=
  fun _ hf => addedFiles_take_subset _ _ (mem_addedFiles hf)

theorem snapshot_nodup (h : Inv s) (i : ι) : (s.snapshot i).Nodup := by
  have hsub : (addedFiles (s.log.take (s.node i).head)).Sublist (addedFiles s.log) := by
    nth_rewrite 2 [← List.take_append_drop (s.node i).head s.log]
    rw [addedFiles, addedFiles, List.flatMap_append]
    exact List.sublist_append_left _ _
  have hadded : (addedFiles (s.log.take (s.node i).head)).Nodup :=
    (h.owned.added_nodup.of_map).sublist hsub
  obtain ⟨l, hperm, hl⟩ := listed_subperm (s.log.take (s.node i).head)
  exact hperm.nodup_iff.mp (hadded.sublist hl)

theorem encoded_snapshots {buffer : List (TableKey × Row)} {columns : TableKey → List String}
    (content : AbsPath → List Row)
    (hcov : ∀ p ∈ buffer, (Clustering.mk none (columns p.1)).covers p.2) {b : FlushTable}
    (hb : b ∈ snapshots buffer columns) : Encoded content b [] b.pieces := by
  obtain ⟨key, _, rfl⟩ := List.mem_map.mp hb
  refine ⟨?_, ?_, rfl⟩
  · intro r hr
    obtain ⟨p, hp, rfl⟩ := List.mem_map.mp hr
    obtain ⟨hin, hkey⟩ := List.mem_filter.mp hp
    obtain rfl : p.1 = key := by simpa using hkey
    exact hcov p hin
  · intro f hf
    cases hf

/-- What a call knows when it begins. -/
theorem Opens.taskInv (hopens : Opens s i T') (h : Inv s) :
    TaskInv s.log s.content T' ∧ T'.outputs = [] := by
  cases hopens with
  | flush columns hcov =>
      refine ⟨⟨⟨[], rfl, rfl, by simp⟩, ?_, ?_⟩, rfl⟩
      · intro table rest htodo
        exact encoded_snapshots s.content hcov (htodo ▸ List.mem_cons_self)
      · intro table rest htodo b hb
        exact encoded_snapshots s.content hcov (htodo ▸ List.mem_cons_of_mem _ hb)
  | compact keys hgroups =>
      refine ⟨?_, rfl⟩
      intro g hg
      obtain ⟨key, hkey, rfl⟩ := List.mem_map.mp hg
      refine ⟨hgroups key hkey, (snapshot_nodup h i).filter _, ?_, ?_⟩
      · exact fun f hf => snapshot_added s i (List.mem_of_mem_filter hf)
      · intro f hf f' hf'
        have hkeyOf := (List.mem_filter.mp hf).2
        have hkeyOf' := (List.mem_filter.mp hf').2
        rw [decide_eq_true_eq] at hkeyOf hkeyOf'
        rw [hkeyOf, hkeyOf']
  | rewrite tombstones => exact ⟨snapshot_added s i, rfl⟩
  | retention remove hfrom =>
      refine ⟨?_, rfl⟩
      intro p hp
      obtain ⟨f, hf, hpath⟩ := hfrom p hp
      exact ⟨f, snapshot_added s i hf, hpath⟩
  | drop db table paths hfrom =>
      refine ⟨?_, rfl⟩
      intro p hp
      obtain ⟨f, hf, hpath⟩ := hfrom p hp
      exact ⟨f, snapshot_added s i hf, hpath⟩
  | gc due hfrom => exact ⟨trivial, rfl⟩

theorem GroupOf.perm {log : List ManifestEntry} {files files' : List FileMeta}
    (h : GroupOf log files) (hperm : files'.Perm files) : GroupOf log files' where
  nonempty := fun hnil => h.nonempty ((hnil ▸ hperm).symm.eq_nil)
  nodup := hperm.nodup_iff.mpr h.nodup
  added := fun _ hf => h.added (hperm.mem_iff.mp hf)
  one := fun f hf g hg => h.one f (hperm.mem_iff.mp hf) g (hperm.mem_iff.mp hg)

theorem Advances.taskInv (hadv : Advances s T T') (h : Inv s)
    (hT : TaskInv s.log s.content T) :
    TaskInv s.log s.content T' ∧ T'.outputs.Sublist T.outputs := by
  cases hadv with
  | tableFailed table todo current metas done =>
      refine ⟨⟨hT.finished, ?_, ?_⟩, List.sublist_append_right _ _⟩
      · rintro next rest rfl
        exact hT.waiting table _ rfl next List.mem_cons_self
      · rintro next rest rfl b hb
        exact hT.waiting table _ rfl b (List.mem_cons_of_mem _ hb)
  | nextGroup files groups =>
      have hsort : (sortByPath files).Perm files := List.perm_insertionSort _ files
      have hgroup := (hT files List.mem_cons_self).perm hsort
      refine ⟨⟨fun g hg => hT g (List.mem_cons_of_mem _ hg), hgroup, [], rfl, rfl⟩, ?_⟩
      exact List.Sublist.refl _
  | read groups files rest sets f rows hobject =>
      obtain ⟨hgroups, hfiles, read, hsplit, hsets⟩ := hT
      refine ⟨⟨hgroups, hfiles, read ++ [f], ?_, ?_⟩, List.Sublist.refl _⟩
      · rw [hsplit, List.append_assoc, List.singleton_append]
      · rw [hsets, h.object _ _ hobject]
        simp
  | skip ts f todo n =>
      exact ⟨fun g hg => hT (List.mem_cons_of_mem _ hg), List.Sublist.refl _⟩
  | emptied ts f todo n =>
      exact ⟨⟨fun g hg => hT (List.mem_cons_of_mem _ hg), hT List.mem_cons_self⟩,
        List.Sublist.refl _⟩
  | thinned ts f todo n rows kept hobject hkept =>
      refine ⟨⟨fun g hg => hT (List.mem_cons_of_mem _ hg), hT List.mem_cons_self, ?_⟩,
        List.Sublist.refl _⟩
      rw [← h.object _ _ hobject]
      exact hkept.subperm

/-- The object of the record is the object of the tag. -/
theorem Puts.object {k seq : Nat} {a : Action ι} {tag : FileTag} {f : FileMeta}
    {rows : List Row} (h : Puts i k seq a T tag f rows T') : objectOf f = tag.path := by
  cases h <;> exact abs_dataPath ..

theorem Puts.outputs {k seq : Nat} {a : Action ι} {tag : FileTag} {f : FileMeta}
    {rows : List Row} (h : Puts i k seq a T tag f rows T') :
    T'.outputs.Perm (f :: T.outputs) := by
  cases h with
  | piece =>
      simp only [Task.outputs, List.append_assoc, List.singleton_append]
      exact List.perm_middle
  | lastPiece =>
      simp only [Task.outputs, List.nil_append]
      rw [← List.append_assoc]
      refine (List.perm_append_singleton _ _).trans ?_
      exact List.Perm.cons _ List.perm_append_comm
  | merge => exact List.Perm.refl _
  | rewrite => exact List.Perm.refl _

theorem Encoded.next {content : AbsPath → List Row} {key : TableKey} {columns : List String}
    {rows piece : List Row} {partition : String} {pieces : List (String × List Row)}
    {files : List FileMeta} {f : FileMeta}
    (h : Encoded content ⟨key, columns, rows, (partition, piece) :: pieces⟩ files
      ((partition, piece) :: pieces))
    (hkey : f.key = key) (hpartition : f.partition = partition)
    (hrows : content (objectOf f) = piece) :
    Encoded content ⟨key, columns, rows, pieces⟩ (files ++ [f]) pieces := by
  refine ⟨h.covered, ?_, ?_⟩
  · intro g hg
    rcases List.mem_append.mp hg with hold | hnew
    · exact h.key g hold
    · rw [List.mem_singleton.mp hnew]
      exact hkey
  · rw [← h.split]
    simp [hpartition, hrows]

/-- What a task knows of the object it has just written. -/
theorem Puts.taskInv {k seq : Nat} {a : Action ι} {tag : FileTag} {f : FileMeta}
    {rows : List Row} {log : List ManifestEntry} {content : AbsPath → List Row}
    (h : Puts i k seq a T tag f rows T') (hT : TaskInv log content T)
    (hrows : content (objectOf f) = rows) : TaskInv log content T' := by
  cases h with
  | piece key columns batch partition rows next pieces todo current metas done size =>
      refine ⟨hT.finished, ?_, ?_⟩
      · rintro table rest ⟨⟩
        exact (hT.writing _ _ rfl).next rfl rfl hrows
      · rintro table rest ⟨⟩ b hb
        exact hT.waiting _ _ rfl b hb
  | lastPiece key columns batch partition rows todo current metas done size =>
      refine ⟨?_, ?_, ?_⟩
      · obtain ⟨tables, rfl, rfl, hfinished⟩ := hT.finished
        have hlast := (hT.writing _ _ rfl).next rfl rfl hrows
        refine ⟨tables ++ [(⟨key, columns, batch, []⟩, current ++
          [outputMeta .fresh key partition rows (timeBounds rows).2 seq size])], ?_, ?_, ?_⟩
        · simp only [List.flatMap_append, List.flatMap_singleton]
        · simp only [List.flatMap_append, List.flatMap_singleton]
        · intro b hb
          rcases List.mem_append.mp hb with hold | hnew
          · exact hfinished b hold
          · rw [List.mem_singleton.mp hnew]
            exact hlast
      · rintro table rest rfl
        exact hT.waiting _ _ rfl table List.mem_cons_self
      · rintro table rest rfl b hb
        exact hT.waiting _ _ rfl b (List.mem_cons_of_mem _ hb)
  | merge groups f₀ files sets c merged size hcov hmerged =>
      obtain ⟨hgroups, hfiles, read, hsplit, hsets⟩ := hT
      obtain rfl : f₀ :: files = read := by simpa using hsplit
      obtain ⟨hour, hpiece, _⟩ := mergeFiles_piece hcov hmerged
      refine ⟨hgroups, hfiles, ?_, hour, ?_⟩
      · intro g hg
        rw [hfiles.one g hg f₀ List.mem_cons_self]
        rfl
      · rw [hrows, rowsIn, List.flatMap_def, ← hsets]
        exact hpiece
  | rewrite ts todo n input kept c merged size hcov hmerged =>
      obtain ⟨htodo, hinput, hkept⟩ := hT
      have hcov' : ∀ r ∈ [kept].flatten, c.covers r := by simpa using hcov
      obtain ⟨hour, hpiece, _⟩ := mergeFiles_piece hcov' hmerged
      have hsub : merged.rows.Subperm kept := by simpa using hpiece.subperm
      refine ⟨htodo, hinput, rfl, ?_⟩
      rw [hrows]
      exact hsub.trans hkept

/-- A commit adds outputs of its task and leaves no output behind. -/
theorem Commits.outputs {k : Nat} {log : List ManifestEntry} {a : Action ι} {args : CommitArgs}
    {removed : List String} {stored : List (TableKey × Row)} {o : Option Task}
    (h : Commits i k log a T args removed stored o) :
    args.addFiles.Sublist T.outputs ∧ ∀ T', o = some T' → T'.outputs = [] := by
  cases h with
  | flush current metas done =>
      refine ⟨List.sublist_append_right _ _, ?_⟩
      rintro _ ⟨⟩
  | compact seen groups files output hpresent =>
      refine ⟨List.Sublist.refl _, ?_⟩
      rintro _ ⟨⟩
      rfl
  | rewriteDrop ts todo n f =>
      refine ⟨List.Sublist.refl _, ?_⟩
      rintro _ ⟨⟩
      rfl
  | rewrite ts todo n f output =>
      refine ⟨List.Sublist.refl _, ?_⟩
      rintro _ ⟨⟩
      rfl
  | retention remove =>
      refine ⟨List.Sublist.refl _, ?_⟩
      rintro _ ⟨⟩
  | drop db table paths =>
      refine ⟨List.Sublist.refl _, ?_⟩
      rintro _ ⟨⟩

theorem Commits.taskInv {k : Nat} {log : List ManifestEntry} {content : AbsPath → List Row}
    {a : Action ι} {args : CommitArgs} {removed : List String}
    {stored : List (TableKey × Row)} {o : Option Task}
    (h : Commits i k log a T args removed stored o) (hT : TaskInv log content T) :
    ∀ T', o = some T' → TaskInv log content T' := by
  cases h with
  | compact seen groups files output hpresent =>
      rintro _ ⟨⟩
      exact hT.1
  | rewriteDrop ts todo n f =>
      rintro _ ⟨⟩
      exact hT.1
  | rewrite ts todo n f output =>
      rintro _ ⟨⟩
      exact hT.1
  | flush | retention | drop => rintro _ ⟨⟩

/-- Every path a commit leaves for deletion names a file of the log that the
entry takes out of the catalog. -/
theorem Commits.removed {k : Nat} {log : List ManifestEntry} {content : AbsPath → List Row}
    {a : Action ι} {args : CommitArgs} {removed : List String}
    {stored : List (TableKey × Row)} {o : Option Task} (seq : Nat)
    (h : Commits i k log a T args removed stored o) (hT : TaskInv log content T) :
    ∀ p ∈ removed, ∃ g ∈ addedFiles log, g.path = p ∧
      (g ∈ listed log → p ∈ (args.entry seq).removePaths ∨ droppedBy (args.entry seq) g) := by
  intro p hp
  cases h with
  | flush current metas done => cases hp
  | compact seen groups files output hpresent =>
      obtain ⟨f, hf, rfl⟩ := List.mem_map.mp hp
      exact ⟨f, hT.2.1.added hf, rfl, fun _ => .inl hp⟩
  | rewriteDrop ts todo n f =>
      obtain rfl := List.mem_singleton.mp hp
      exact ⟨f, hT.2, rfl, fun _ => .inl hp⟩
  | rewrite ts todo n f output =>
      obtain rfl := List.mem_singleton.mp hp
      exact ⟨f, hT.2.1, rfl, fun _ => .inl hp⟩
  | retention remove =>
      obtain ⟨f, hf, hpath⟩ := hT p hp
      exact ⟨f, hf, hpath, fun _ => .inl hp⟩
  | drop db table paths =>
      obtain ⟨f, hf, hpath, hkey⟩ := hT p hp
      exact ⟨f, hf, hpath, fun _ => .inr ⟨⟨db, table⟩, by simp [CommitArgs.entry], hkey⟩⟩

end Moves

/-- A listed file with the path of a file of the log is that file. -/
theorem listed_of_path {s : State ι} (h : Inv s) {f : FileMeta} (hf : f ∈ addedFiles s.log)
    (hlisted : ∃ g ∈ listed s.log, g.path = f.path) : f ∈ listed s.log := by
  obtain ⟨g, hg, hpath⟩ := hlisted
  have hobject : objectOf g = objectOf f := by rw [objectOf, hpath, objectOf]
  rw [← h.owned.added_inj (mem_addedFiles hg) hf hobject]
  exact hg

/-- The tag of the object a step is about to write. -/
def putTag (s : State ι) : Action ι → Option FileTag
  | .flushPut i k _ =>
      match s.task i k with
      | some (.flush (⟨key, _, _, (partition, piece) :: _⟩ :: _) _ _ _) =>
          some (fileTag .fresh key.1 key.2 partition (timeBounds piece).2 (s.node i).fileSeq)
      | _ => none
  | .compactPut i k c _ =>
      match s.task i k with
      | some (.compactRead _ (f₀ :: _) [] sets) =>
          match mergeFiles c sets with
          | .ok merged =>
              some (fileTag .compacted f₀.db f₀.table f₀.partition merged.maxTs (s.node i).fileSeq)
          | .error _ => none
      | _ => none
  | .rewritePut i k c _ =>
      match s.task i k with
      | some (.rewritePut _ _ _ f kept) =>
          match mergeFiles c [kept] with
          | .ok merged =>
              some (fileTag .rewritten f.db f.table f.partition merged.maxTs (s.node i).fileSeq)
          | .error _ => none
      | _ => none
  | _ => none

/-- If an earlier write of the run was of the same kind, in the same directory,
with the same largest timestamp and at the same counter value, then nothing is
left of it: its file was not committed, no call holds it and no queue names
it. -/
def fresh (s : State ι) (a : Action ι) : Prop :=
  ∀ tag, putTag s a = some tag → tag ∈ s.puts → ¬ InUse s tag.path

theorem Puts.putTag_eq {s : State ι} {i : ι} {k : Nat} {a : Action ι} {T T' : Task}
    {tag : FileTag} {f : FileMeta} {rows : List Row} (hT : s.task i k = some T)
    (h : Puts i k (s.node i).fileSeq a T tag f rows T') : putTag s a = some tag := by
  cases h with
  | piece => simp only [putTag, hT]
  | lastPiece => simp only [putTag, hT]
  | merge groups f₀ files sets c merged size hcov hmerged => simp only [putTag, hT, hmerged]
  | rewrite ts todo n input kept c merged size hcov hmerged => simp only [putTag, hT, hmerged]

/-- A fresh write goes to an object that nothing uses. -/
theorem fresh.unused {s : State ι} {a : Action ι} {tag : FileTag} (hfresh : fresh s a)
    (h : Inv s) (htag : putTag s a = some tag) : ¬ InUse s tag.path := by
  intro huse
  obtain ⟨earlier, hin, hpath⟩ := h.written _ huse
  obtain rfl := FileTag.path_injective hpath
  exact hfresh earlier htag hin huse

section Step

variable {s t : State ι} {a : Action ι}

theorem outputsAt_some {i : ι} {k : Nat} {T : Task} (h : s.task i k = some T) :
    outputsAt s i k = T.outputs := by
  simp [outputsAt, h]

theorem outputsAt_sublist {i : ι} {k : Nat}
    (h : ∀ T', t.task i k = some T' → T'.outputs.Sublist (outputsAt s i k)) :
    (outputsAt t i k).Sublist (outputsAt s i k) := by
  cases hT' : t.task i k with
  | none => simp [outputsAt, hT']
  | some T' =>
      rw [outputsAt_some hT']
      exact h T' hT'

theorem TaskSet.outputs {i : ι} {k : Nat} {o : Option Task} (h : TaskSet s t i k o) :
    ∀ j l, ¬ (j = i ∧ l = k) → outputsAt t j l = outputsAt s j l := by
  intro j l hjl
  rw [outputsAt, h.2 j l hjl, outputsAt]

theorem TaskSet.noOutputs {i : ι} {k : Nat} {o : Option Task} (h : TaskSet s t i k o)
    (hnone : ∀ T', o = some T' → T'.outputs = []) : outputsAt t i k = [] := by
  rw [outputsAt, h.1]
  cases o with
  | none => rfl
  | some T' => exact hnone T' rfl

/-- A slot that has no output any more. The others' outputs stay away from what it
had. -/
theorem TaskSet.cleared {i : ι} {k : Nat} {o : Option Task} (hset : TaskSet s t i k o)
    (hnone : outputsAt t i k = []) : ∀ j l, (outputsAt t j l).Sublist (outputsAt s j l) := by
  intro j l
  by_cases hjl : j = i ∧ l = k
  · obtain ⟨rfl, rfl⟩ := hjl
    rw [hnone]
    exact List.nil_sublist _
  · rw [hset.outputs j l hjl]

theorem TaskSet.apart {i : ι} {k : Nat} {o : Option Task} (hset : TaskSet s t i k o) (h : Inv s)
    (hnone : outputsAt t i k = []) {f : FileMeta} (hf : f ∈ outputsAt s i k) :
    ∀ j l, ∀ g ∈ outputsAt t j l, objectOf g ≠ objectOf f := by
  intro j l g hg
  by_cases hjl : j = i ∧ l = k
  · obtain ⟨rfl, rfl⟩ := hjl
    rw [hnone] at hg
    cases hg
  · exact h.owned.out_out j l i k hjl g (hset.outputs j l hjl ▸ hg) f hf

/-- A step that uses no new object keeps its objects among the written ones. -/
theorem written_of_inUse (h : Inv s) (hputs : t.puts = s.puts)
    (huse : ∀ q, InUse t q → InUse s q) : ∀ q, InUse t q → ∃ tag ∈ t.puts, tag.path = q := by
  intro q hq
  rw [hputs]
  exact h.written q (huse q hq)

theorem Inv.quiet (h : Inv s) (hsame : Unwritten s t) (hlog : t.log = s.log)
    (htask : ∀ j l T', t.task j l = some T' → s.task j l = some T' ∨ Opens s j T' ∨
      ∃ T, s.task j l = some T ∧ Advances s T T')
    (hdeferred : ∀ p, Deferred t p → Deferred s p) : Inv t := by
  have hmoved : ∀ j l T', t.task j l = some T' →
      TaskInv s.log s.content T' ∧ T'.outputs.Sublist (outputsAt s j l) := by
    intro j l T' hT'
    rcases htask j l T' hT' with hT | hopens | ⟨T, hT, hadv⟩
    · exact ⟨h.task j l T' hT, by rw [outputsAt_some hT]⟩
    · obtain ⟨hinv, hnone⟩ := hopens.taskInv h
      exact ⟨hinv, by rw [hnone]; exact List.nil_sublist _⟩
    · rw [outputsAt_some hT]
      exact hadv.taskInv h (h.task j l T hT)
  have houts : ∀ j l, (outputsAt t j l).Sublist (outputsAt s j l) :=
    fun j l => outputsAt_sublist fun T' hT' => (hmoved j l T' hT').2
  refine ⟨hlog ▸ h.owned.shrink houts hdeferred, written_of_inUse h hsame.puts ?_, ?_, ?_, ?_⟩
  · rintro q (hadded | ⟨j, l, f, hf, hq⟩ | ⟨p, hp, hq⟩)
    · exact .inl (hlog ▸ hadded)
    · exact .inr (.inl ⟨j, l, f, (houts j l).subset hf, hq⟩)
    · exact .inr (.inr ⟨p, hdeferred p hp, hq⟩)
  · intro j l T' hT'
    rw [hlog, hsame.content]
    exact (hmoved j l T' hT').1
  · rw [hsame.objects, hsame.content]
    exact h.object
  · rw [hsame.objects, hsame.content, hlog]
    rintro f (hf | ⟨j, l, hf⟩)
    · exact h.stored f (.inl hf)
    · exact h.stored f (.inr ⟨j, l, (houts j l).subset hf⟩)

theorem Inv.put (h : Inv s) {i : ι} {k : Nat} {T T' : Task} {tag : FileTag} {f : FileMeta}
    {rows : List Row} (hunused : ¬ InUse s tag.path) (htask : s.task i k = some T)
    (hputs : Puts i k (s.node i).fileSeq a T tag f rows T') (hset : TaskSet s t i k (some T'))
    (hlog : t.log = s.log) (hobjects : t.objects = Function.update s.objects tag.path (some rows))
    (hnew : t.puts = tag :: s.puts)
    (hcontent : t.content = Function.update s.content tag.path rows)
    (hdeferred : ∀ p, Deferred t p → Deferred s p) : Inv t := by
  have hobject : objectOf f = tag.path := hputs.object
  have hself : (outputsAt t i k).Perm (f :: outputsAt s i k) := by
    rw [outputsAt_some hset.1, outputsAt_some htask]
    exact hputs.outputs
  have hmem : ∀ j l, ∀ g ∈ outputsAt t j l, g ∈ outputsAt s j l ∨ g = f := by
    intro j l g hg
    by_cases hjl : j = i ∧ l = k
    · obtain ⟨rfl, rfl⟩ := hjl
      rcases List.mem_cons.mp (hself.mem_iff.mp hg) with rfl | hold
      · exact .inr rfl
      · exact .inl hold
    · exact .inl (hset.outputs j l hjl ▸ hg)
  have hadded : ∀ g ∈ addedFiles s.log, objectOf g ≠ tag.path :=
    fun g hg heq => hunused (.inl ⟨g, hg, heq⟩)
  have houts : ∀ j l, ∀ g ∈ outputsAt s j l, objectOf g ≠ tag.path :=
    fun j l g hg heq => hunused (.inr (.inl ⟨j, l, g, hg, heq⟩))
  have hkeep : ∀ q, q ≠ tag.path → t.content q = s.content q ∧ t.objects q = s.objects q := by
    intro q hq
    rw [hcontent, hobjects]
    exact ⟨Function.update_of_ne hq _ _, Function.update_of_ne hq _ _⟩
  have hrows : t.content (objectOf f) = rows := by
    rw [hcontent, hobject, Function.update_self]
  refine ⟨?_, ?_, ?_, ?_, ?_⟩
  · rw [hlog]
    refine h.owned.output hself hset.outputs hdeferred ?_ ?_ ?_
    · intro g hg heq
      exact hadded g hg (heq ▸ hobject)
    · intro j l g hg heq
      exact houts j l g hg (heq ▸ hobject)
    · intro p hp heq
      exact hunused (.inr (.inr ⟨p, hp, heq ▸ hobject⟩))
  · intro q hq
    rw [hnew]
    have hcases : InUse s q ∨ q = tag.path := by
      rcases hq with hq | ⟨j, l, g, hg, hq⟩ | ⟨p, hp, hq⟩
      · exact .inl (.inl (hlog ▸ hq))
      · rcases hmem j l g hg with hold | rfl
        · exact .inl (.inr (.inl ⟨j, l, g, hold, hq⟩))
        · exact .inr (hq ▸ hobject)
      · exact .inl (.inr (.inr ⟨p, hdeferred p hp, hq⟩))
    rcases hcases with hold | rfl
    · obtain ⟨tag', hin, hpath⟩ := h.written q hold
      exact ⟨tag', List.mem_cons_of_mem _ hin, hpath⟩
    · exact ⟨tag, List.mem_cons_self, rfl⟩
  · intro j l T₁ hT₁
    rw [hlog]
    have htransfer : ∀ T₀, s.task j l = some T₀ → TaskInv s.log t.content T₀ := by
      intro T₀ hT₀
      refine (h.task j l T₀ hT₀).transfer (fun _ hg => hg) ?_ ?_
      · exact fun g hg => (hkeep _ (hadded g hg)).1
      · intro g hg
        rw [← outputsAt_some hT₀] at hg
        exact (hkeep _ (houts j l g hg)).1
    by_cases hjl : j = i ∧ l = k
    · obtain ⟨rfl, rfl⟩ := hjl
      obtain rfl := Option.some.inj (hset.1.symm.trans hT₁)
      exact hputs.taskInv (htransfer T htask) hrows
    · exact htransfer T₁ (hset.2 j l hjl ▸ hT₁)
  · intro q rows' hq
    by_cases hpath : q = tag.path
    · subst hpath
      rw [hobjects, Function.update_self] at hq
      rw [hcontent, Function.update_self]
      exact (Option.some.inj hq).symm
    · rw [(hkeep q hpath).1]
      exact h.object q rows' ((hkeep q hpath).2 ▸ hq)
  · have hold : ∀ g, (g ∈ listed s.log ∨ ∃ j l, g ∈ outputsAt s j l) →
        t.objects (objectOf g) = some (t.content (objectOf g)) := by
      intro g hg
      have hne : objectOf g ≠ tag.path := by
        rcases hg with hlisted | ⟨j, l, hout⟩
        · exact hadded g (mem_addedFiles hlisted)
        · exact houts j l g hout
      rw [(hkeep _ hne).1, (hkeep _ hne).2]
      exact h.stored g hg
    rintro g (hg | ⟨j, l, hg⟩)
    · exact hold g (.inl (hlog ▸ hg))
    · rcases hmem j l g hg with hout | rfl
      · exact hold g (.inr ⟨j, l, hout⟩)
      · rw [hrows, hobject, hobjects, Function.update_self]

/-- The log grows by outputs of one slot. -/
theorem Inv.commit (h : Inv s) {i : ι} {k : Nat} {e : ManifestEntry} {removed : List String}
    (hadds : e.addFiles.Sublist (outputsAt s i k))
    (houts : ∀ j l, (outputsAt t j l).Sublist (outputsAt s j l))
    (hself : ∀ f ∈ e.addFiles, ∀ j l, ∀ g ∈ outputsAt t j l, objectOf g ≠ objectOf f)
    (htask : ∀ j l T', t.task j l = some T' → TaskInv s.log s.content T')
    (hsame : Unwritten s t) (hlog : t.log = s.log ++ [e])
    (hdeferred : ∀ p, Deferred t p → Deferred s p ∨ p ∈ removed)
    (hremoved : ∀ p ∈ removed, ∃ g ∈ addedFiles s.log, g.path = p ∧
      (g ∈ listed s.log → p ∈ e.removePaths ∨ droppedBy e g)) : Inv t := by
  have hgrow : addedFiles s.log ⊆ addedFiles t.log := by
    rw [hlog, addedFiles_snoc]
    exact List.subset_append_left _ _
  refine ⟨?_, written_of_inUse h hsame.puts ?_, ?_, ?_, ?_⟩
  · rw [hlog]
    exact h.owned.commit hadds houts hself hdeferred hremoved
  · rintro q (⟨g, hg, hq⟩ | ⟨j, l, g, hg, hq⟩ | ⟨p, hp, hq⟩)
    · rw [hlog, addedFiles_snoc] at hg
      rcases List.mem_append.mp hg with hg | hg
      · exact .inl ⟨g, hg, hq⟩
      · exact .inr (.inl ⟨i, k, g, hadds.subset hg, hq⟩)
    · exact .inr (.inl ⟨j, l, g, (houts j l).subset hg, hq⟩)
    · rcases hdeferred p hp with hold | hnew
      · exact .inr (.inr ⟨p, hold, hq⟩)
      · obtain ⟨g, hg, rfl, _⟩ := hremoved p hnew
        exact .inl ⟨g, hg, hq⟩
  · intro j l T' hT'
    rw [hsame.content]
    exact (htask j l T' hT').transfer hgrow (fun _ _ => rfl) fun _ _ => rfl
  · rw [hsame.objects, hsame.content]
    exact h.object
  · rw [hsame.objects, hsame.content]
    rintro g (hg | ⟨j, l, hg⟩)
    · rw [hlog] at hg
      rcases (mem_listed_snoc.mp hg).1 with ⟨hold, _⟩ | hnew
      · exact h.stored g (.inl hold)
      · exact h.stored g (.inr ⟨i, k, hadds.subset hnew⟩)
    · exact h.stored g (.inr ⟨j, l, (houts j l).subset hg⟩)

theorem Inv.stale (h : Inv s) {i : ι} {k : Nat} {groups : List (List FileMeta)}
    {files : List FileMeta} {output : FileMeta}
    (htask : s.task i k = some (.compactCommit groups files output))
    (hset : TaskSet s t i k (some (.compactNext groups))) (hsame : Unwritten s t)
    (hlog : t.log = s.log) (hdeferred : ∀ p, Deferred t p → Deferred s p ∨ p = output.path) :
    Inv t := by
  have hin : output ∈ outputsAt s i k := by
    rw [outputsAt_some htask]
    exact List.mem_singleton_self _
  have hnone : outputsAt t i k = [] := outputsAt_some hset.1
  have hsub := hset.cleared hnone
  refine ⟨hlog ▸ h.owned.giveUp hin hsub (hset.apart h hnone hin) hdeferred,
    written_of_inUse h hsame.puts ?_, ?_, ?_, ?_⟩
  · rintro q (hadded | ⟨j, l, g, hg, hq⟩ | ⟨p, hp, hq⟩)
    · exact .inl (hlog ▸ hadded)
    · exact .inr (.inl ⟨j, l, g, (hsub j l).subset hg, hq⟩)
    · rcases hdeferred p hp with hold | rfl
      · exact .inr (.inr ⟨p, hold, hq⟩)
      · exact .inr (.inl ⟨i, k, output, hin, hq⟩)
  · intro j l T' hT'
    rw [hlog, hsame.content]
    by_cases hjl : j = i ∧ l = k
    · obtain ⟨rfl, rfl⟩ := hjl
      obtain rfl := Option.some.inj (hset.1.symm.trans hT')
      exact (h.task j l _ htask).1
    · exact h.task j l T' (hset.2 j l hjl ▸ hT')
  · rw [hsame.objects, hsame.content]
    exact h.object
  · rw [hsame.objects, hsame.content, hlog]
    rintro g (hg | ⟨j, l, hg⟩)
    · exact h.stored g (.inl hg)
    · exact h.stored g (.inr ⟨j, l, (hsub j l).subset hg⟩)

theorem Inv.delete (h : Inv s) {i : ι} {k : Nat} {p : String} {due : List String}
    (htask : s.task i k = some (.gc (p :: due))) (hset : TaskSet s t i k (some (.gc due)))
    (hobjects : t.objects = Function.update s.objects (abs p) none) (hputs : t.puts = s.puts)
    (hcontent : t.content = s.content) (hlog : t.log = s.log)
    (hdeferred : ∀ p, Deferred t p → Deferred s p) : Inv t := by
  have hout : ∀ j l, outputsAt t j l = outputsAt s j l := by
    intro j l
    by_cases hjl : j = i ∧ l = k
    · obtain ⟨rfl, rfl⟩ := hjl
      rw [outputsAt_some hset.1, outputsAt_some htask]
      rfl
    · exact hset.outputs j l hjl
  have hdue : Deferred s p := ⟨i, .inr ⟨k, _, htask, List.mem_cons_self⟩⟩
  refine ⟨?_, written_of_inUse h hputs ?_, ?_, ?_, ?_⟩
  · rw [hlog]
    exact h.owned.shrink (fun j l => by rw [hout]) hdeferred
  · rintro q (hadded | ⟨j, l, g, hg, hq⟩ | ⟨p, hp, hq⟩)
    · exact .inl (hlog ▸ hadded)
    · exact .inr (.inl ⟨j, l, g, hout j l ▸ hg, hq⟩)
    · exact .inr (.inr ⟨p, hdeferred p hp, hq⟩)
  · intro j l T' hT'
    rw [hlog, hcontent]
    by_cases hjl : j = i ∧ l = k
    · obtain ⟨rfl, rfl⟩ := hjl
      obtain rfl := Option.some.inj (hset.1.symm.trans hT')
      trivial
    · exact h.task j l T' (hset.2 j l hjl ▸ hT')
  · intro q rows hq
    rw [hobjects] at hq
    rw [hcontent]
    by_cases hpath : q = abs p
    · subst hpath
      rw [Function.update_self] at hq
      cases hq
    · rw [Function.update_of_ne hpath] at hq
      exact h.object q rows hq
  · rw [hlog]
    intro g hg
    have hne : objectOf g ≠ abs p := by
      rcases hg with hlisted | ⟨j, l, hg⟩
      · exact h.owned.deferred_listed p hdue g hlisted
      · exact h.owned.deferred_out p hdue j l g (hout j l ▸ hg)
    rw [hobjects, Function.update_of_ne hne, hcontent]
    apply h.stored
    rcases hg with hlisted | ⟨j, l, hg⟩
    · exact .inl hlisted
    · exact .inr ⟨j, l, hout j l ▸ hg⟩

theorem Inv.effect (h : Inv s) (hfresh : fresh s a) (heffect : Effect s a t) : Inv t := by
  cases heffect with
  | quiet harrives hsame hlog hflushed htask hdeferred => exact h.quiet hsame hlog htask hdeferred
  | put i k T T' tag f rows hkeep htask hputs hset hlog hflushed hobjects hnew hcontent
      hdeferred =>
      have hunused := hfresh.unused h (hputs.putTag_eq htask)
      exact h.put hunused htask hputs hset hlog hobjects hnew hcontent hdeferred
  | commit i k T args removed stored o hkeep htask hcommits hset hsame hlog hflushed hdeferred =>
      have hT := h.task i k T htask
      obtain ⟨hadds, hleft⟩ := hcommits.outputs
      rw [← outputsAt_some htask] at hadds
      have hnone : outputsAt t i k = [] := hset.noOutputs hleft
      refine h.commit hadds (hset.cleared hnone) ?_ ?_ hsame hlog hdeferred (hcommits.removed _ hT)
      · exact fun f hf => hset.apart h hnone (hadds.subset hf)
      · intro j l T' hT'
        by_cases hjl : j = i ∧ l = k
        · obtain ⟨rfl, rfl⟩ := hjl
          exact hcommits.taskInv hT T' (hset.1 ▸ hT')
        · exact h.task j l T' (hset.2 j l hjl ▸ hT')
  | tombstone i tombstone hact hkeep hsame htask hlog hflushed hdeferred =>
      have hout : ∀ j l, outputsAt t j l = outputsAt s j l := fun j l => by
        rw [outputsAt, htask, outputsAt]
      have hqueue : ∀ p, Deferred t p → Deferred s p ∨ p ∈ ([] : List String) :=
        fun p hp => .inl (hdeferred p hp)
      refine h.commit (i := i) (k := 0) (List.nil_sublist _) (fun j l => by rw [hout]) ?_ ?_ hsame
        hlog hqueue (fun p hp => by cases hp)
      · exact fun f hf => by cases hf
      · exact fun j l T' hT' => h.task j l T' (htask ▸ hT')
  | stale i k groups files output hkeep htask hset hsame hlog hflushed hdeferred =>
      exact h.stale htask hset hsame hlog hdeferred
  | delete i k p due hkeep htask hset hobjects hputs hcontent hlog hflushed hdeferred =>
      exact h.delete htask hset hobjects hputs hcontent hlog hdeferred

theorem inv_initial : Inv (initial : State ι) where
  owned := by
    refine ⟨List.nodup_nil, fun _ _ => List.nodup_nil, ?_, ?_, ?_, ?_⟩
    · exact fun _ _ _ hf => by cases hf
    · exact fun _ _ _ _ _ _ hf => by cases hf
    · exact fun _ _ _ hf => by cases hf
    · exact fun _ _ _ _ _ hf => by cases hf
  written := by
    rintro q (⟨f, hf, _⟩ | ⟨_, _, f, hf, _⟩ | ⟨p, ⟨_, hp | ⟨_, _, hT, _⟩⟩, _⟩)
    · cases hf
    · cases hf
    · cases hp
    · cases hT
  task := by
    rintro i k T ⟨⟩
  object := by
    rintro q rows ⟨⟩
  stored := by
    rintro f (hf | ⟨_, _, hf⟩)
    · cases hf
    · cases hf

theorem Inv.step [DecidableEq ι] (h : Inv s) (hfresh : fresh s a) (hs : Cluster.step s a = some t) :
    Inv t :=
  h.effect hfresh (step_effect hs)

/-- The invariant holds along every run whose writes are fresh, whatever else its
steps are asked to meet. -/
theorem Inv.run [DecidableEq ι] {ok : State ι → Action ι → Prop} (hok : ∀ s a, ok s a → fresh s a)
    {acts : List (Action ι)} (run : Run Cluster.step ok s acts t) (h : Inv s) : Inv t :=
  run.invariant (fun _ _ _ hinv hallowed hs => hinv.step (hok _ _ hallowed) hs) h

end Step

end TimeLake.Cluster
