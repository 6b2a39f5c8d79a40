import TimeLake.Cluster.Machine

/-!
What one step can do, said once. A step either changes nothing shared, or
writes one object, appends one entry, gives up a stale merge, or deletes one
object; beside that it moves at most one task. `step_effect` reads this off the
step function, and every invariant is then kept by five lemmas.
-/

namespace TimeLake.Cluster

open TimeLake.Library TimeLake.Catalog TimeLake.Rows TimeLake.Store

variable {ι : Type}

/-- The object a file lives in. -/
def objectOf (f : FileMeta) : AbsPath := abs f.path

/-- Files written and not yet committed. -/
def Task.outputs : Task → List FileMeta
  | .flush _ current metas _ => current ++ metas
  | .compactCommit _ _ output => [output]
  | .rewriteCommit _ _ _ _ output => [output]
  | _ => []

/-- Paths a running `run_gc` is about to delete. -/
def Task.due : Task → List String
  | .gc due => due
  | _ => []

/-- A path some node will delete. -/
def Deferred (s : State ι) (p : String) : Prop :=
  ∃ i, p ∈ (s.node i).pendingGc ∨ ∃ k T, s.task i k = some T ∧ p ∈ T.due

/-- The tasks a call may begin as. -/
inductive Opens (s : State ι) (i : ι) : Task → Prop where
  | flush (columns : TableKey → List String)
      (hcov : ∀ p ∈ (s.node i).buffer, (Clustering.mk none (columns p.1)).covers p.2) :
      Opens s i (.flush (snapshots (s.node i).buffer columns) [] [] [])
  | compact (keys : List GroupKey)
      (hgroups : ∀ key ∈ keys, ((s.snapshot i).filter fun f => groupKey f = key) ≠ []) :
      Opens s i
        (.compactNext (keys.map fun key => (s.snapshot i).filter fun f => groupKey f = key))
  | rewrite (tombstones : List Tombstone) : Opens s i (.rewriteNext tombstones (s.snapshot i) 0)
  | retention (remove : List String)
      (hfrom : ∀ p ∈ remove, ∃ f ∈ s.snapshot i, f.path = p) : Opens s i (.retention remove)
  | drop (db table : String) (paths : List String)
      (hfrom : ∀ p ∈ paths, ∃ f ∈ s.snapshot i, f.path = p ∧ f.key = (db, table)) :
      Opens s i (.drop db table paths)
  | gc (due : List String) (hfrom : ∀ p ∈ due, p ∈ (s.node i).pendingGc) : Opens s i (.gc due)

/-- The moves of a task that change nothing shared. -/
inductive Advances (s : State ι) : Task → Task → Prop where
  | tableFailed (table : FlushTable) (todo : List FlushTable) (current metas : List FileMeta)
      (done : List (TableKey × Row)) :
      Advances s (.flush (table :: todo) current metas done) (.flush todo [] metas done)
  | nextGroup (files : List FileMeta) (groups : List (List FileMeta)) :
      Advances s (.compactNext (files :: groups))
        (.compactRead groups (sortByPath files) (sortByPath files) [])
  | read (groups : List (List FileMeta)) (files rest : List FileMeta) (sets : List (List Row))
      (f : FileMeta) (rows : List Row) (hobject : s.objects (objectOf f) = some rows) :
      Advances s (.compactRead groups files (f :: rest) sets)
        (.compactRead groups files rest (sets ++ [rows]))
  | skip (ts : List Tombstone) (f : FileMeta) (todo : List FileMeta) (n : Nat) :
      Advances s (.rewriteNext ts (f :: todo) n) (.rewriteNext ts todo n)
  | emptied (ts : List Tombstone) (f : FileMeta) (todo : List FileMeta) (n : Nat) :
      Advances s (.rewriteNext ts (f :: todo) n) (.rewriteDrop ts todo n f)
  | thinned (ts : List Tombstone) (f : FileMeta) (todo : List FileMeta) (n : Nat)
      (rows kept : List Row) (hobject : s.objects (objectOf f) = some rows)
      (hkept : kept.Sublist rows) :
      Advances s (.rewriteNext ts (f :: todo) n) (.rewritePut ts todo n f kept)

/-- The moves of a task that write an object: its tag, its catalog record and
its rows. -/
inductive Puts (i : ι) (k seq : Nat) :
    Action ι → Task → FileTag → FileMeta → List Row → Task → Prop where
  | piece (key : TableKey) (columns : List String) (rows : List Row) (partition : String)
      (piece : List Row) (next : String × List Row) (pieces : List (String × List Row))
      (todo : List FlushTable) (current metas : List FileMeta)
      (done : List (TableKey × Row)) (size : Nat) :
      Puts i k seq (.flushPut i k size)
        (.flush (⟨key, columns, rows, (partition, piece) :: next :: pieces⟩ :: todo)
          current metas done)
        (fileTag .fresh key.1 key.2 partition (timeBounds piece).2 seq)
        (outputMeta .fresh key partition piece (timeBounds piece).2 seq size) piece
        (.flush (⟨key, columns, rows, next :: pieces⟩ :: todo)
          (current ++ [outputMeta .fresh key partition piece (timeBounds piece).2 seq size])
          metas done)
  | lastPiece (key : TableKey) (columns : List String) (rows : List Row) (partition : String)
      (piece : List Row) (todo : List FlushTable) (current metas : List FileMeta)
      (done : List (TableKey × Row)) (size : Nat) :
      Puts i k seq (.flushPut i k size)
        (.flush (⟨key, columns, rows, [(partition, piece)]⟩ :: todo) current metas done)
        (fileTag .fresh key.1 key.2 partition (timeBounds piece).2 seq)
        (outputMeta .fresh key partition piece (timeBounds piece).2 seq size) piece
        (.flush todo []
          (metas ++ (current ++
            [outputMeta .fresh key partition piece (timeBounds piece).2 seq size]))
          (done ++ rows.map fun r => (key, r)))
  | merge (groups : List (List FileMeta)) (f₀ : FileMeta) (files : List FileMeta)
      (sets : List (List Row)) (c : Clustering) (merged : Merged) (size : Nat)
      (hcov : ∀ r ∈ sets.flatten, c.covers r) (hmerged : mergeFiles c sets = .ok merged) :
      Puts i k seq (.compactPut i k c size) (.compactRead groups (f₀ :: files) [] sets)
        (fileTag .compacted f₀.db f₀.table f₀.partition merged.maxTs seq)
        (outputMeta .compacted f₀.key f₀.partition merged.rows merged.maxTs seq size) merged.rows
        (.compactCommit groups (f₀ :: files)
          (outputMeta .compacted f₀.key f₀.partition merged.rows merged.maxTs seq size))
  | rewrite (ts : List Tombstone) (todo : List FileMeta) (n : Nat) (f : FileMeta)
      (kept : List Row) (c : Clustering) (merged : Merged) (size : Nat)
      (hcov : ∀ r ∈ kept, c.covers r) (hmerged : mergeFiles c [kept] = .ok merged) :
      Puts i k seq (.rewritePut i k c size) (.rewritePut ts todo n f kept)
        (fileTag .rewritten f.db f.table f.partition merged.maxTs seq)
        (outputMeta .rewritten f.key f.partition merged.rows merged.maxTs seq size) merged.rows
        (.rewriteCommit ts todo n f
          (outputMeta .rewritten f.key f.partition merged.rows merged.maxTs seq size))

/-- The moves of a task that append an entry: the arguments of the commit, the
paths it leaves for later deletion and the rows it stores for good. -/
inductive Commits (i : ι) (k : Nat) (log : List ManifestEntry) : Action ι → Task →
    CommitArgs → List String → List (TableKey × Row) → Option Task → Prop where
  | flush (current metas : List FileMeta) (done : List (TableKey × Row)) :
      Commits i k log (.flushCommit i k) (.flush [] current metas done)
        ⟨metas, [], [], [], [], false⟩ [] done none
  | compact (seen : Nat) (groups : List (List FileMeta)) (files : List FileMeta)
      (output : FileMeta) (hpresent : ∀ f ∈ files, ∃ g ∈ listed log, g.path = f.path) :
      Commits i k log (.compactCommit i k seen) (.compactCommit groups files output)
        ⟨[output], files.map FileMeta.path, [], [], [], true⟩ (files.map FileMeta.path) []
        (some (.compactNext groups))
  | rewriteDrop (ts : List Tombstone) (todo : List FileMeta) (n : Nat) (f : FileMeta) :
      Commits i k log (.rewriteCommit i k) (.rewriteDrop ts todo n f)
        ⟨[], [f.path], [], [], [], false⟩ [f.path] []
        (some (.rewriteNext ts todo (n + 1)))
  | rewrite (ts : List Tombstone) (todo : List FileMeta) (n : Nat) (f output : FileMeta) :
      Commits i k log (.rewriteCommit i k) (.rewriteCommit ts todo n f output)
        ⟨[output], [f.path], [], [], [], false⟩ [f.path] [] (some (.rewriteNext ts todo (n + 1)))
  | retention (remove : List String) :
      Commits i k log (.retentionCommit i k) (.retention remove)
        ⟨[], remove, [], [], [], false⟩ remove [] none
  | drop (db table : String) (paths : List String) :
      Commits i k log (.dropCommit i k) (.drop db table paths)
        ⟨[], [], [], [], [⟨db, table⟩], false⟩ paths [] none

/-- Slot `k` of node `i` holds `o` and every other slot is as before. -/
def TaskSet (s t : State ι) (i : ι) (k : Nat) (o : Option Task) : Prop :=
  t.task i k = o ∧ ∀ j l, ¬ (j = i ∧ l = k) → t.task j l = s.task j l

structure Unwritten (s t : State ι) : Prop where
  objects : t.objects = s.objects
  puts : t.puts = s.puts
  content : t.content = s.content

/-- No client writes: the buffers lose rows at most. -/
structure KeepsRows (s t : State ι) : Prop where
  written : t.written = s.written
  buffer : ∀ j, (t.node j).buffer.Sublist (s.node j).buffer

/-- Rows enter a buffer by a write and by a replay only. -/
inductive Arrives (s : State ι) (t : State ι) : Action ι → Prop where
  | write (i : ι) (key : TableKey) (time : Int) (tags : TagSet)
      (fields : List (String × FieldValue)) : Arrives s t (.write i key time tags fields)
  | replay (i : ι) (replayed : List (TableKey × Row)) : Arrives s t (.restart i replayed)
  | none {a : Action ι} (hkeep : KeepsRows s t) : Arrives s t a

inductive Effect (s : State ι) (a : Action ι) (t : State ι) : Prop where
  | quiet (harrives : Arrives s t a) (hsame : Unwritten s t) (hlog : t.log = s.log)
      (hflushed : t.flushed = s.flushed)
      (htask : ∀ j l T', t.task j l = some T' → s.task j l = some T' ∨ Opens s j T' ∨
        ∃ T, s.task j l = some T ∧ Advances s T T')
      (hdeferred : ∀ p, Deferred t p → Deferred s p)
  | put (i : ι) (k : Nat) (T T' : Task) (tag : FileTag) (f : FileMeta) (rows : List Row)
      (hkeep : KeepsRows s t) (htask : s.task i k = some T)
      (hputs : Puts i k (s.node i).fileSeq a T tag f rows T')
      (hset : TaskSet s t i k (some T')) (hlog : t.log = s.log) (hflushed : t.flushed = s.flushed)
      (hobjects : t.objects = Function.update s.objects tag.path (some rows))
      (hnew : t.puts = tag :: s.puts)
      (hcontent : t.content = Function.update s.content tag.path rows)
      (hdeferred : ∀ p, Deferred t p → Deferred s p)
  | commit (i : ι) (k : Nat) (T : Task) (args : CommitArgs) (removed : List String)
      (stored : List (TableKey × Row)) (o : Option Task) (hkeep : KeepsRows s t)
      (htask : s.task i k = some T)
      (hcommits : Commits i k s.log a T args removed stored o) (hset : TaskSet s t i k o)
      (hsame : Unwritten s t) (hlog : t.log = s.log ++ [args.entry (s.log.length + 1)])
      (hflushed : t.flushed = s.flushed ++ stored)
      (hdeferred : ∀ p, Deferred t p → Deferred s p ∨ p ∈ removed)
  | tombstone (i : ι) (tombstone : Tombstone) (hact : a = .tombstone i tombstone)
      (hkeep : KeepsRows s t) (hsame : Unwritten s t) (htask : t.task = s.task)
      (hlog : t.log = s.log ++
        [CommitArgs.entry ⟨[], [], [tombstone], [], [], false⟩ (s.log.length + 1)])
      (hflushed : t.flushed = s.flushed) (hdeferred : ∀ p, Deferred t p → Deferred s p)
  | stale (i : ι) (k : Nat) (groups : List (List FileMeta)) (files : List FileMeta)
      (output : FileMeta) (hkeep : KeepsRows s t)
      (htask : s.task i k = some (.compactCommit groups files output))
      (hset : TaskSet s t i k (some (.compactNext groups))) (hsame : Unwritten s t)
      (hlog : t.log = s.log) (hflushed : t.flushed = s.flushed)
      (hdeferred : ∀ p, Deferred t p → Deferred s p ∨ p = output.path)
  | delete (i : ι) (k : Nat) (p : String) (due : List String)
      (hkeep : KeepsRows s t) (htask : s.task i k = some (.gc (p :: due)))
      (hset : TaskSet s t i k (some (.gc due)))
      (hobjects : t.objects = Function.update s.objects (abs p) none) (hputs : t.puts = s.puts)
      (hcontent : t.content = s.content) (hlog : t.log = s.log)
      (hflushed : t.flushed = s.flushed) (hdeferred : ∀ p, Deferred t p → Deferred s p)

section Set

variable {s t : State ι} {a : Action ι} {i : ι} {k : Nat} {o : Option Task}

theorem TaskSet.moves (hset : TaskSet s t i k o)
    (hnew : ∀ T', o = some T' → Opens s i T' ∨ ∃ T, s.task i k = some T ∧ Advances s T T') :
    ∀ j l T', t.task j l = some T' → s.task j l = some T' ∨ Opens s j T' ∨
      ∃ T, s.task j l = some T ∧ Advances s T T' := by
  intro j l T' hT'
  by_cases hjl : j = i ∧ l = k
  · obtain ⟨rfl, rfl⟩ := hjl
    exact .inr (hnew T' (hset.1 ▸ hT'))
  · exact .inl (by rw [← hset.2 j l hjl]; exact hT')

/-- Nothing is deferred but what was already, what a new task took over, and
what entered a queue. -/
theorem TaskSet.deferred (hset : TaskSet s t i k o) {X : String → Prop}
    (hqueue : ∀ j, ∀ p ∈ (t.node j).pendingGc, p ∈ (s.node j).pendingGc ∨ X p)
    (hdue : ∀ T', o = some T' → ∀ p ∈ T'.due, Deferred s p) :
    ∀ p, Deferred t p → Deferred s p ∨ X p := by
  rintro p ⟨j, hp | ⟨l, T, hT, hp⟩⟩
  · rcases hqueue j p hp with hold | hx
    · exact .inl ⟨j, .inl hold⟩
    · exact .inr hx
  · by_cases hjl : j = i ∧ l = k
    · obtain ⟨rfl, rfl⟩ := hjl
      exact .inl (hdue T (hset.1 ▸ hT) p hp)
    · exact .inl ⟨j, .inr ⟨l, T, by rw [← hset.2 j l hjl]; exact hT, hp⟩⟩

theorem TaskSet.notDeferred (hset : TaskSet s t i k o)
    (hqueue : ∀ j, (t.node j).pendingGc ⊆ (s.node j).pendingGc)
    (hdue : ∀ T', o = some T' → ∀ p ∈ T'.due, Deferred s p) :
    ∀ p, Deferred t p → Deferred s p := by
  intro p hp
  have hold := hset.deferred (X := fun _ => False) (fun j p hp => .inl (hqueue j hp)) hdue p hp
  exact hold.resolve_right id

theorem Effect.ofQuiet (hset : TaskSet s t i k o) (hkeep : KeepsRows s t) (hsame : Unwritten s t)
    (hlog : t.log = s.log)
    (hflushed : t.flushed = s.flushed)
    (hqueue : ∀ j, (t.node j).pendingGc ⊆ (s.node j).pendingGc)
    (hdue : ∀ T', o = some T' → ∀ p ∈ T'.due, Deferred s p)
    (hnew : ∀ T', o = some T' → Opens s i T' ∨ ∃ T, s.task i k = some T ∧ Advances s T T') :
    Effect s a t :=
  .quiet (.none hkeep) hsame hlog hflushed (hset.moves hnew) (hset.notDeferred hqueue hdue)

end Set

section Step

variable [DecidableEq ι] {s t : State ι} {i : ι} {k : Nat}

theorem taskSet_setTask {u : State ι} {o : Option Task} (hu : u.task = s.task) :
    TaskSet s (u.setTask i k o) i k o := by
  constructor
  · simp [State.setTask]
  · intro j l hjl
    by_cases hj : j = i
    · subst hj
      have hl : l ≠ k := fun h => hjl ⟨rfl, h⟩
      simp [State.setTask, hl, hu]
    · simp [State.setTask, hj, hu]

/-- Only counters, buffers, replicas and queues differ, and no queue and no buffer
has grown. -/
structure NodeOnly (s u : State ι) : Prop where
  keep : KeepsRows s u
  same : Unwritten s u
  log : u.log = s.log
  flushed : u.flushed = s.flushed
  task : u.task = s.task
  queue : ∀ j, (u.node j).pendingGc ⊆ (s.node j).pendingGc

omit [DecidableEq ι] in
theorem NodeOnly.refl (s : State ι) : NodeOnly s s :=
  ⟨⟨rfl, fun _ => List.Sublist.refl _⟩, ⟨rfl, rfl, rfl⟩, rfl, rfl, rfl, fun _ _ hp => hp⟩

theorem keepsRows_setNode (s : State ι) (i : ι) (n : Node)
    (h : n.buffer.Sublist (s.node i).buffer) : KeepsRows s (s.setNode i n) := by
  refine ⟨rfl, ?_⟩
  intro j
  by_cases hj : j = i
  · subst hj
    simpa [State.setNode] using h
  · simp [State.setNode, hj]

theorem nodeOnly_setNode (s : State ι) (i : ι) (n : Node)
    (hqueue : n.pendingGc ⊆ (s.node i).pendingGc) (hbuffer : n.buffer.Sublist (s.node i).buffer) :
    NodeOnly s (s.setNode i n) := by
  refine ⟨keepsRows_setNode s i n hbuffer, ⟨rfl, rfl, rfl⟩, rfl, rfl, rfl, ?_⟩
  intro j
  by_cases hj : j = i
  · subst hj
    simpa [State.setNode] using hqueue
  · simp [State.setNode, hj]

theorem nodeOnly_countFile (s : State ι) (i : ι) (bumped : Bool) :
    NodeOnly s (countFile s i bumped) :=
  nodeOnly_setNode _ _ _ (fun _ hp => hp) (List.Sublist.refl _)

theorem NodeOnly.effect {u : State ι} {a : Action ι} {o : Option Task} (hu : NodeOnly s u)
    (hdue : ∀ T', o = some T' → ∀ p ∈ T'.due, Deferred s p)
    (hnew : ∀ T', o = some T' → Opens s i T' ∨ ∃ T, s.task i k = some T ∧ Advances s T T') :
    Effect s a (u.setTask i k o) :=
  .ofQuiet (taskSet_setTask hu.task) ⟨hu.keep.written, hu.keep.buffer⟩
    ⟨hu.same.objects, hu.same.puts, hu.same.content⟩ hu.log
    hu.flushed hu.queue hdue hnew

/-- A call ends, or begins or moves without touching anything shared. -/
theorem NodeOnly.ended {u : State ι} {a : Action ι} (hu : NodeOnly s u) :
    Effect s a (u.setTask i k none) := by
  apply hu.effect
  · rintro T' ⟨⟩
  · rintro T' ⟨⟩

theorem NodeOnly.opened {u : State ι} {a : Action ι} {T' : Task} (hu : NodeOnly s u)
    (hdue : T'.due = []) (h : Opens s i T') : Effect s a (u.setTask i k (some T')) := by
  apply hu.effect
  · rintro _ ⟨⟩ p hp
    rw [hdue] at hp
    cases hp
  · rintro _ ⟨⟩
    exact .inl h

theorem NodeOnly.advanced {u : State ι} {a : Action ι} {T T' : Task} (hu : NodeOnly s u)
    (hdue : T'.due = []) (hT : s.task i k = some T) (h : Advances s T T') :
    Effect s a (u.setTask i k (some T')) := by
  apply hu.effect
  · rintro _ ⟨⟩ p hp
    rw [hdue] at hp
    cases hp
  · rintro _ ⟨⟩
    exact .inr ⟨T, hT, h⟩

theorem flushStart_effect {a : Action ι} {columns : TableKey → List String}
    (h : flushStart s i k columns = some t) : Effect s a t := by
  simp only [flushStart] at h
  split at h
  · next hok =>
      obtain rfl := Option.some.inj h
      refine (nodeOnly_setNode _ _ _ ?_ (List.nil_sublist _)).opened rfl (.flush columns hok.2.2)
      exact fun _ hp => hp
  · cases h

theorem flushFail_effect {a : Action ι} {bumped : Bool} (h : flushFail s i k bumped = some t) :
    Effect s a t := by
  simp only [flushFail] at h
  split at h
  · next table todo current metas done hT =>
      obtain rfl := Option.some.inj h
      exact (nodeOnly_countFile s i bumped).advanced rfl hT (.tableFailed ..)
  · cases h

theorem triggerFor_nil (minFiles : Nat) : triggerFor [] minFiles = none := by
  have hmax : ¬ max minFiles 2 ≤ ([] : List FileMeta).length := by
    simp only [List.length_nil]
    omega
  rw [triggerFor, if_neg hmax]
  rfl

theorem compactStart_effect {a : Action ι} {minFiles : Nat} {keys : List GroupKey}
    (h : compactStart s i k minFiles keys = some t) : Effect s a t := by
  simp only [compactStart] at h
  split at h
  · next hok =>
      obtain rfl := Option.some.inj h
      refine (NodeOnly.refl s).opened rfl (.compact keys ?_)
      intro key hkey hnil
      apply hok.2.2.2 key hkey
      rw [hnil]
      exact triggerFor_nil minFiles
  · cases h

theorem compactNext_effect {a : Action ι} (h : compactNext s i k = some t) : Effect s a t := by
  simp only [compactNext] at h
  split at h
  · next files groups hT =>
      obtain rfl := Option.some.inj h
      exact (NodeOnly.refl s).advanced rfl hT (.nextGroup files groups)
  · obtain rfl := Option.some.inj h
    exact (NodeOnly.refl s).ended
  · cases h

theorem compactRead_effect {a : Action ι} (h : compactRead s i k = some t) : Effect s a t := by
  simp only [compactRead] at h
  split at h
  · next groups files f rest sets hT =>
      split at h
      · next rows hobject =>
          obtain rfl := Option.some.inj h
          exact (NodeOnly.refl s).advanced rfl hT (.read groups files rest sets f rows hobject)
      · obtain rfl := Option.some.inj h
        exact (NodeOnly.refl s).ended
  · cases h

theorem rewriteStart_effect {a : Action ι} (h : rewriteStart s i k = some t) : Effect s a t := by
  simp only [rewriteStart] at h
  split at h
  · obtain rfl := Option.some.inj h
    exact (NodeOnly.refl s).opened rfl (.rewrite _)
  · cases h

theorem rewriteRead_effect {a : Action ι} (h : rewriteRead s i k = some t) : Effect s a t := by
  have hlocal := NodeOnly.refl s
  simp only [rewriteRead] at h
  split at h
  · next ts f todo n hT =>
      have hskip : Effect s a (s.setTask i k (some (.rewriteNext ts todo n))) :=
        hlocal.advanced rfl hT (.skip ..)
      split at h
      · obtain rfl := Option.some.inj h
        exact hlocal.ended
      · split at h
        · obtain rfl := Option.some.inj h
          exact hskip
        · split at h
          · obtain rfl := Option.some.inj h
            exact hlocal.ended
          · next rows hobject =>
              split at h
              · obtain rfl := Option.some.inj h
                exact hskip
              · split at h
                · obtain rfl := Option.some.inj h
                  exact hlocal.advanced rfl hT (.emptied ..)
                · obtain rfl := Option.some.inj h
                  exact hlocal.advanced rfl hT
                    (.thinned ts f todo n rows _ hobject List.filter_sublist)
  · obtain rfl := Option.some.inj h
    exact hlocal.ended
  · cases h

theorem retentionStart_effect {a : Action ι} {policies : List RetentionPolicy} {now : Int}
    (h : retentionStart s i k policies now = some t) : Effect s a t := by
  simp only [retentionStart] at h
  split at h
  · next p ps _ hpaths =>
      obtain rfl := Option.some.inj h
      refine (NodeOnly.refl s).opened rfl (.retention _ ?_)
      intro q hq
      rw [← hpaths] at hq
      obtain ⟨f, hf, rfl⟩ := List.mem_map.mp hq
      exact ⟨f, List.mem_of_mem_filter hf, rfl⟩
  · cases h

theorem dropStart_effect {a : Action ι} {db table : String}
    (h : dropStart s i k db table = some t) : Effect s a t := by
  simp only [dropStart] at h
  split at h
  · obtain rfl := Option.some.inj h
    refine (NodeOnly.refl s).opened rfl (.drop db table _ ?_)
    intro q hq
    obtain ⟨f, hf, rfl⟩ := List.mem_map.mp hq
    obtain ⟨hlisted, hkey⟩ := FileIndex.mem_filesFor.mp hf
    exact ⟨f, hlisted, rfl, hkey⟩
  · cases h

theorem gcStart_effect {a : Action ι} {ready : String → Bool}
    (h : gcStart s i k ready = some t) : Effect s a t := by
  simp only [gcStart] at h
  split at h
  · obtain rfl := Option.some.inj h
    have hnode := nodeOnly_setNode s i
      { s.node i with pendingGc := (s.node i).pendingGc.filter fun p => !ready p }
      List.filter_sublist.subset (List.Sublist.refl _)
    refine hnode.effect ?_ ?_
    · rintro _ ⟨⟩ p hp
      exact ⟨i, .inl (List.mem_of_mem_filter hp)⟩
    · rintro _ ⟨⟩
      exact .inl (.gc _ fun p hp => List.mem_of_mem_filter hp)
  · cases h

theorem abandon_effect {a : Action ι} {bumped : Bool} (h : abandon s i k bumped = some t) :
    Effect s a t := by
  simp only [abandon] at h
  split at h
  · obtain rfl := Option.some.inj h
    exact (nodeOnly_countFile s i bumped).ended
  · cases h

theorem put_effect {a : Action ι} {T T' : Task} {tag : FileTag} {f : FileMeta} {rows : List Row}
    (hT : s.task i k = some T) (hputs : Puts i k (s.node i).fileSeq a T tag f rows T')
    (hdue : T'.due = []) : Effect s a ((s.put i tag rows).setTask i k (some T')) := by
  have hset : TaskSet s ((s.put i tag rows).setTask i k (some T')) i k (some T') :=
    taskSet_setTask rfl
  have hnode := nodeOnly_setNode s i { s.node i with fileSeq := (s.node i).fileSeq + 1 }
    (fun _ hp => hp) (List.Sublist.refl _)
  refine .put i k T T' tag f rows ⟨rfl, hnode.keep.buffer⟩ hT hputs hset rfl rfl rfl rfl rfl
    (hset.notDeferred ?_ ?_)
  · exact hnode.queue
  · rintro _ ⟨⟩ p hp
    rw [hdue] at hp
    cases hp

theorem flushPut_effect {size : Nat} (h : flushPut s i k size = some t) :
    Effect s (.flushPut i k size) t := by
  simp only [flushPut] at h
  split at h
  · next key columns rows partition piece pieces todo current metas done hT =>
      cases pieces with
      | nil =>
          obtain rfl := Option.some.inj h
          exact put_effect hT (.lastPiece ..) rfl
      | cons next pieces =>
          obtain rfl := Option.some.inj h
          exact put_effect hT (.piece ..) rfl
  · cases h

theorem compactPut_effect {c : Clustering} {size : Nat} (h : compactPut s i k c size = some t) :
    Effect s (.compactPut i k c size) t := by
  simp only [compactPut] at h
  split at h
  · next groups f₀ files sets hT =>
      split at h
      · next hcov =>
          split at h
          · obtain rfl := Option.some.inj h
            exact (NodeOnly.refl s).ended
          · next merged hmerged =>
              obtain rfl := Option.some.inj h
              exact put_effect hT (.merge _ _ _ _ c merged size (List.all_eq_true.mp hcov) hmerged)
                rfl
      · cases h
  · cases h

theorem rewritePut_effect {c : Clustering} {size : Nat} (h : rewritePut s i k c size = some t) :
    Effect s (.rewritePut i k c size) t := by
  simp only [rewritePut] at h
  split at h
  · next ts todo n f kept hT =>
      split at h
      · next hcov =>
          split at h
          · obtain rfl := Option.some.inj h
            exact (NodeOnly.refl s).ended
          · next merged hmerged =>
              obtain rfl := Option.some.inj h
              exact put_effect hT (.rewrite _ _ _ _ _ c merged size (List.all_eq_true.mp hcov)
                  hmerged)
                rfl
      · cases h
  · cases h

theorem queue_deferGc {u : State ι} {paths : List String}
    (hu : ∀ j, (u.node j).pendingGc = (s.node j).pendingGc) (j : ι) :
    ∀ p ∈ ((u.deferGc i paths).node j).pendingGc, p ∈ (s.node j).pendingGc ∨ p ∈ paths := by
  intro p hp
  by_cases hj : j = i
  · subst hj
    simp only [State.deferGc, State.setNode, Function.update_self, List.mem_append, hu] at hp
    exact hp
  · simp only [State.deferGc, State.setNode, ne_eq, hj, not_false_eq_true,
      Function.update_of_ne, hu] at hp
    exact .inl hp

theorem buffer_deferGc {u : State ι} {paths : List String}
    (hu : ∀ j, (u.node j).buffer.Sublist (s.node j).buffer) (j : ι) :
    ((u.deferGc i paths).node j).buffer.Sublist (s.node j).buffer := by
  by_cases hj : j = i
  · subst hj
    simpa [State.deferGc, State.setNode] using hu j
  · simpa [State.deferGc, State.setNode, hj] using hu j

theorem buffer_head {n : Nat} (j : ι) :
    ((s.setNode i { s.node i with head := n }).node j).buffer.Sublist (s.node j).buffer :=
  (keepsRows_setNode s i { s.node i with head := n } (List.Sublist.refl _)).buffer j

theorem queue_head {n : Nat} (j : ι) :
    ((s.setNode i { s.node i with head := n }).node j).pendingGc = (s.node j).pendingGc := by
  by_cases hj : j = i
  · subst hj
    simp [State.setNode]
  · simp [State.setNode, hj]

/-- A commit of a task that leaves its inputs for deletion. -/
theorem commit_effect {a : Action ι} {T : Task} {args : CommitArgs} {removed : List String}
    {stored : List (TableKey × Row)} {o : Option Task} (hT : s.task i k = some T)
    (hcommits : Commits i k s.log a T args removed stored o) (hset : TaskSet s t i k o)
    (hdue : ∀ T', o = some T' → T'.due = []) (hkeep : KeepsRows s t) (hsame : Unwritten s t)
    (hlog : t.log = s.log ++ [args.entry (s.log.length + 1)])
    (hflushed : t.flushed = s.flushed ++ stored)
    (hqueue : ∀ j, (t.node j).pendingGc =
      (((s.commit i args).deferGc i removed).node j).pendingGc) : Effect s a t := by
  refine .commit i k T args removed stored o hkeep hT hcommits hset hsame hlog hflushed
    (hset.deferred ?_ ?_)
  · intro j p hp
    rw [hqueue] at hp
    exact queue_deferGc queue_head j p hp
  · intro T' hT' p hp
    rw [hdue T' hT'] at hp
    cases hp

theorem flushCommit_effect (h : flushCommit s i k = some t) :
    Effect s (.flushCommit i k) t := by
  simp only [flushCommit] at h
  split at h
  · next current metas done hT =>
      obtain rfl := Option.some.inj h
      refine commit_effect hT (.flush current metas done) (taskSet_setTask rfl) ?_
        ⟨rfl, buffer_head⟩ ⟨rfl, rfl, rfl⟩ rfl rfl ?_
      · rintro T' ⟨⟩
      · intro j
        simp [State.deferGc, State.setTask, State.setNode]
  · cases h

theorem compactCommit_effect {seen : Nat} (h : compactCommit s i k seen = some t) :
    Effect s (.compactCommit i k seen) t := by
  simp only [compactCommit] at h
  split at h
  · next groups files output hT =>
      split at h
      · split at h
        · obtain rfl := Option.some.inj h
          have hset := taskSet_setTask (s := s) (i := i) (k := k)
            (u := (s.setNode i { s.node i with head := seen }).deferGc i [output.path])
            (o := some (.compactNext groups)) rfl
          refine .stale i k groups files output ⟨rfl, buffer_deferGc buffer_head⟩ hT hset
            ⟨rfl, rfl, rfl⟩ rfl rfl (hset.deferred ?_ ?_)
          · intro j p hp
            simpa using queue_deferGc queue_head j p hp
          · rintro _ ⟨⟩ p hp
            cases hp
        · next hpresent =>
            split at h
            · next hseen =>
                obtain rfl := Option.some.inj h
                refine commit_effect hT (.compact seen groups files output ?_)
                  (taskSet_setTask rfl) ?_ ⟨rfl, buffer_deferGc buffer_head⟩ ⟨rfl, rfl, rfl⟩ rfl
                  (List.append_nil _).symm fun j => rfl
                · intro f hf
                  rw [hseen, List.take_length] at hpresent
                  exact firstAbsent_eq_none.mp hpresent _ (List.mem_map_of_mem hf)
                · rintro _ ⟨⟩
                  rfl
            · cases h
      · cases h
  · cases h

theorem rewriteCommit_effect (h : rewriteCommit s i k = some t) :
    Effect s (.rewriteCommit i k) t := by
  simp only [rewriteCommit] at h
  split at h
  · next ts todo n f hT =>
      obtain rfl := Option.some.inj h
      refine commit_effect hT (.rewriteDrop ts todo n f) (taskSet_setTask rfl) ?_
        ⟨rfl, buffer_deferGc buffer_head⟩ ⟨rfl, rfl, rfl⟩ rfl (List.append_nil _).symm fun j => rfl
      rintro _ ⟨⟩
      rfl
  · next ts todo n f output hT =>
      obtain rfl := Option.some.inj h
      refine commit_effect hT (.rewrite ts todo n f output) (taskSet_setTask rfl) ?_
        ⟨rfl, buffer_deferGc buffer_head⟩ ⟨rfl, rfl, rfl⟩ rfl (List.append_nil _).symm fun j => rfl
      rintro _ ⟨⟩
      rfl
  · cases h

theorem retentionCommit_effect (h : retentionCommit s i k = some t) :
    Effect s (.retentionCommit i k) t := by
  simp only [retentionCommit] at h
  split at h
  · next remove hT =>
      obtain rfl := Option.some.inj h
      refine commit_effect hT (.retention remove) (taskSet_setTask rfl) ?_
        ⟨rfl, buffer_deferGc buffer_head⟩ ⟨rfl, rfl, rfl⟩ rfl (List.append_nil _).symm fun j => rfl
      rintro _ ⟨⟩
  · cases h

theorem dropCommit_effect (h : dropCommit s i k = some t) : Effect s (.dropCommit i k) t := by
  simp only [dropCommit] at h
  split at h
  · next db table paths hT =>
      obtain rfl := Option.some.inj h
      refine commit_effect hT (.drop db table paths) (taskSet_setTask rfl) ?_ ⟨rfl, ?_⟩
        ⟨rfl, rfl, rfl⟩ rfl (List.append_nil _).symm ?_
      · rintro _ ⟨⟩
      · intro j
        exact ((keepsRows_setNode _ i _ List.filter_sublist).buffer j).trans
          (buffer_deferGc buffer_head j)
      · intro j
        by_cases hj : j = i
        · subst hj
          simp [State.deferGc, State.setTask, State.setNode]
        · simp [State.deferGc, State.setTask, State.setNode, hj]
  · cases h

theorem gcDelete_effect (h : gcDelete s i k = some t) : Effect s (.gcDelete i k) t := by
  simp only [gcDelete] at h
  split at h
  · next p due hT =>
      obtain rfl := Option.some.inj h
      have hset := taskSet_setTask (s := s) (i := i) (k := k) (o := some (.gc due))
        (u := { s with objects := Function.update s.objects (abs p) none }) rfl
      refine .delete i k p due ⟨rfl, fun _ => List.Sublist.refl _⟩ hT hset rfl rfl rfl rfl rfl
        (hset.notDeferred ?_ ?_)
      · exact fun j _ hp => hp
      · rintro _ ⟨⟩ q hq
        exact ⟨i, .inr ⟨k, _, hT, List.mem_cons_of_mem p hq⟩⟩
  · obtain rfl := Option.some.inj h
    exact (NodeOnly.refl s).ended
  · cases h

theorem restart_effect {replayed : List (TableKey × Row)} (h : restart s i replayed = some t) :
    Effect s (.restart i replayed) t := by
  simp only [restart] at h
  split at h
  · obtain rfl := Option.some.inj h
    have htask : ∀ j l T', Function.update s.task i (fun _ => none) j l = some T' →
        s.task j l = some T' := by
      intro j l T' hT'
      by_cases hj : j = i
      · subst hj
        rw [Function.update_self] at hT'
        cases hT'
      · rwa [Function.update_of_ne hj] at hT'
    refine .quiet (.replay i replayed) ⟨rfl, rfl, rfl⟩ rfl rfl
      (fun j l T' hT' => .inl (htask j l T' hT')) ?_
    rintro p ⟨j, hp | ⟨l, T, hT, hp⟩⟩
    · by_cases hj : j = i
      · subst hj
        simp [State.setNode] at hp
      · exact ⟨j, .inl (by simpa [State.setNode, hj] using hp)⟩
    · exact ⟨j, .inr ⟨l, T, htask j l T hT, hp⟩⟩
  · cases h

omit [DecidableEq ι] in
theorem NodeOnly.untasked {u : State ι} {a : Action ι} (hu : NodeOnly s u) : Effect s a u := by
  refine .quiet (.none hu.keep) hu.same hu.log hu.flushed
    (fun j l T' hT' => .inl (hu.task ▸ hT')) ?_
  rintro p ⟨j, hp | ⟨l, T, hT, hp⟩⟩
  · exact ⟨j, .inl (hu.queue j hp)⟩
  · exact ⟨j, .inr ⟨l, T, hu.task ▸ hT, hp⟩⟩

/-- Every step is one of the six effects. -/
theorem step_effect {a : Action ι} (h : step s a = some t) : Effect s a t := by
  cases a with
  | write i key time tags fields =>
      obtain rfl := Option.some.inj h
      refine .quiet (.write i key time tags fields) ⟨rfl, rfl, rfl⟩ rfl rfl
        (fun j l T' hT' => .inl hT') ?_
      rintro p ⟨j, hp | ⟨l, T, hT, hp⟩⟩
      · refine ⟨j, .inl ?_⟩
        by_cases hj : j = i
        · subst hj
          simpa [State.setNode] using hp
        · simpa [State.setNode, hj] using hp
      · exact ⟨j, .inr ⟨l, T, hT, hp⟩⟩
  | catchUp i =>
      obtain rfl := Option.some.inj h
      exact (nodeOnly_setNode s i { s.node i with head := s.log.length } (fun _ hp => hp)
        (List.Sublist.refl _)).untasked
  | tombstone i tombstone =>
      obtain rfl := Option.some.inj h
      refine .tombstone i tombstone rfl ⟨rfl, buffer_head⟩ ⟨rfl, rfl, rfl⟩ rfl rfl rfl ?_
      rintro p ⟨j, hp | ⟨l, T, hT, hp⟩⟩
      · exact ⟨j, .inl (queue_head j ▸ hp)⟩
      · exact ⟨j, .inr ⟨l, T, hT, hp⟩⟩
  | flushStart i k columns => exact flushStart_effect h
  | flushPut i k size => exact flushPut_effect h
  | flushFail i k bumped => exact flushFail_effect h
  | flushCommit i k => exact flushCommit_effect h
  | compactStart i k minFiles keys => exact compactStart_effect h
  | compactNext i k => exact compactNext_effect h
  | compactRead i k => exact compactRead_effect h
  | compactPut i k c size => exact compactPut_effect h
  | compactCommit i k seen => exact compactCommit_effect h
  | rewriteStart i k => exact rewriteStart_effect h
  | rewriteRead i k => exact rewriteRead_effect h
  | rewritePut i k c size => exact rewritePut_effect h
  | rewriteCommit i k => exact rewriteCommit_effect h
  | retentionStart i k policies now => exact retentionStart_effect h
  | retentionCommit i k => exact retentionCommit_effect h
  | dropStart i k db table => exact dropStart_effect h
  | dropCommit i k => exact dropCommit_effect h
  | gcStart i k ready => exact gcStart_effect h
  | gcDelete i k => exact gcDelete_effect h
  | abandon i k bumped => exact abandon_effect h
  | restart i replayed => exact restart_effect h

end Step

end TimeLake.Cluster
