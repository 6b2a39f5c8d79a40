import TimeLake.Store.Local
import TimeLake.Cluster.Machine
import TimeLake.Ingest.Replay

/-!
One directory tree for data and for the manifest. Data paths begin with the
database and the table as the client wrote them, and nothing on the write path
looks at these names, so a table may lie below `catalog/manifest`. A member of
a `Site` takes writes, flushes its buffers, merges and rewrites files, commits
and collects, each as one step over the shared store; in between any other
member may do the same. A member that restarts is a new one.

The rows a flush holds in `flushing` and what becomes of the log are left out:
no path depends on them.
-/

namespace TimeLake.Cluster

open TimeLake.Library TimeLake.Catalog TimeLake.Rows TimeLake.Store TimeLake.Wal TimeLake.Ingest

section Names

/-- The data of this table goes below `catalog/manifest`. -/
def Shadows (key : TableKey) : Prop := manifestDir <+: Store.abs key.1 ++ Store.abs key.2

instance (key : TableKey) : Decidable (Shadows key) :=
  inferInstanceAs (Decidable (manifestDir <+: _))

theorem abs_partitionDir (db table partition : String) :
    Store.abs (partitionDir db table partition) =
      Store.abs db ++ Store.abs table ++ "data".toList :: Store.abs partition := by
  have hdata : "/data/" = "/" ++ "data" ++ "/" := by decide +kernel
  have hseg : Store.abs "data" = ["data".toList] := by decide +kernel
  have hpath : partitionDir db table partition =
      db ++ "/" ++ table ++ "/" ++ ("data" ++ "/" ++ partition) := by
    rw [partitionDir, hdata]
    simp only [String.append_assoc]
  rw [hpath, abs_append, abs_append, abs_append, hseg]
  rfl

private theorem prefix_two {α : Type*} {a b d : α} (hda : d ≠ a) (hdb : d ≠ b) (l r : List α) :
    [a, b] <+: l ++ d :: r ↔ [a, b] <+: l := by
  refine ⟨fun h => ?_, fun h => h.trans (List.prefix_append _ _)⟩
  match l, h with
  | [], h =>
      obtain ⟨hhead, _⟩ := List.cons_prefix_cons.mp h
      exact absurd hhead.symm hda
  | [x], h =>
      obtain ⟨_, htail⟩ := List.cons_prefix_cons.mp h
      obtain ⟨hhead, _⟩ := List.cons_prefix_cons.mp htail
      exact absurd hhead.symm hdb
  | x :: y :: rest, h =>
      obtain ⟨rfl, htail⟩ := List.cons_prefix_cons.mp h
      obtain ⟨rfl, _⟩ := List.cons_prefix_cons.mp htail
      exact ⟨rest, rfl⟩

/-- A data file lies below `catalog/manifest` exactly when its table does,
whatever its partition and name. -/
theorem outside_dataPath (kind : FileKind) (db table partition : String) (maxTs : Int)
    (seq : Nat) :
    Outside (dataPath kind db table partition maxTs seq) ↔ ¬ Shadows (db, table) := by
  have hpath : Store.abs (dataPath kind db table partition maxTs seq) =
      Store.abs db ++ Store.abs table ++
        "data".toList :: (Store.abs partition ++ [fileName kind maxTs seq]) := by
    rw [abs_dataPath, FileTag.path, fileTag, abs_partitionDir]
    simp only [List.append_assoc, List.cons_append]
  have hlong : manifestDir ≠ Store.abs (dataPath kind db table partition maxTs seq) ∨
      ¬ Shadows (db, table) := by
    by_cases hshadow : Shadows (db, table)
    · left
      intro heq
      have hlen := congrArg List.length heq
      have hle := hshadow.length_le
      rw [hpath, List.length_append] at hlen
      simp only [List.length_cons, List.length_append] at hlen hle
      omega
    · exact .inr hshadow
  have hiff : manifestDir <+: Store.abs (dataPath kind db table partition maxTs seq) ↔
      Shadows (db, table) := by
    rw [hpath, Shadows]
    exact prefix_two (by decide +kernel) (by decide +kernel) _ _
  rw [Outside, hiff, not_and]
  constructor
  · intro h hshadow
    rcases hlong with hne | hnot
    · exact h hshadow hne
    · exact hnot hshadow
  · exact fun h hshadow => absurd hshadow h

end Names

section Commit

/-- `commit_guarded`: the fence, the conditional put at the next key, and after
a lost race the catch-up and the next attempt. -/
def commitGuarded (args : CommitArgs) : Nat → LocalStore → Replica →
    LocalStore × Replica × Except IoError Nat
  | 0, store, r => (store, r, .error .resourceBusy)
  | attempts + 1, store, r =>
      match args.missing r.index.files with
      | some path => (store, r, .error (.alreadyExists path))
      | none =>
          match store.putIfAbsent (manifestPath (r.seq + 1)) (.entry (args.entry (r.seq + 1))) with
          | .error e => (store, r, .error e)
          | .ok (store, true) =>
              (store, { r with
                seq := r.seq + 1
                index := applyEntry r.index (args.entry (r.seq + 1)) }, .ok (r.seq + 1))
          | .ok (store, false) =>
              match store.catchUp { r with commitConflicts := r.commitConflicts + 1 } with
              | .error e => (store, { r with commitConflicts := r.commitConflicts + 1 }, .error e)
              | .ok r => commitGuarded args attempts store r

end Commit

/-- One process over the store. -/
structure Member where
  node : Ingest.Node
  replica : Replica
  fileSeq : Nat
  pendingGc : List String

/-- `committed` lists the entries of the commits that returned `Ok`; it is not
data of the program. -/
structure Site (ι : Type) where
  store : LocalStore
  member : ι → Member
  committed : List ManifestEntry

section Flush

/-- The pieces of one table, up to the first put that fails. -/
def putPieces (key : TableKey) (size : List Row → Nat) :
    List (String × List Row) → LocalStore → Nat → LocalStore × Nat × Except IoError (List FileMeta)
  | [], store, seq => (store, seq, .ok [])
  | (partition, rows) :: rest, store, seq =>
      let out := outputMeta .fresh key partition rows (timeBounds rows).2 seq (size rows)
      match store.put out.path .data with
      | .error e => (store, seq + 1, .error e)
      | .ok store =>
          match putPieces key size rest store (seq + 1) with
          | (store, seq, .error e) => (store, seq, .error e)
          | (store, seq, .ok metas) => (store, seq, .ok (out :: metas))

/-- What a flush has done so far: the tables that failed are counted. -/
structure Flushing where
  store : LocalStore
  schemas : AssocMap TableKey Schema
  fileSeq : Nat
  metas : List FileMeta
  failed : Nat

/-- `flush_one`, and what `flush_all` does with its answer. -/
def flushOne (size : List Row → Nat) (s : Flushing) (key : TableKey) (b : TableBuffer) :
    Flushing :=
  match schemaUnion (s.schemas.lookup key) b.schemaOnly with
  | .error _ => { s with failed := s.failed + 1 }
  | .ok merged =>
      let (store, fileSeq, result) :=
        putPieces key size (prepare b.tagNames b.rows) s.store s.fileSeq
      let s := { s with store := store, schemas := s.schemas.insert key merged, fileSeq := fileSeq }
      match result with
      | .error _ => { s with failed := s.failed + 1 }
      | .ok metas => { s with metas := s.metas ++ metas }

/-- The buffers a flush takes. -/
def owned (n : Ingest.Node) : List (TableKey × TableBuffer) :=
  (n.buffers.entries.map fun p => (p.1, p.2.1)).filter fun p => p.2.rows ≠ []

end Flush

inductive SiteAct (ι : Type) where
  | write (i : ι) (c : Ingest.Call) (w : Weather)
  | flush (i : ι) (size : List Row → Nat)
  | compact (i : ι) (files : List FileMeta) (rows : List Row) (size : Nat)
  | rewrite (i : ι) (f : FileMeta) (kept : List Row) (size : Nat)
  | retire (i : ι) (files : List FileMeta)
  | record (i : ι) (tombstones : List Tombstone) (schemas : List TableSchema)
      (drops : List DroppedTable)
  | collect (i : ι) (path : String)
  | catchUp (i : ι)

namespace Site

variable {ι : Type} [DecidableEq ι]

def setMember (s : Site ι) (i : ι) (m : Member) : Site ι :=
  { s with member := Function.update s.member i m }

/-- A commit of member `i`. -/
def commit (s : Site ι) (i : ι) (args : CommitArgs) : Site ι × Except IoError Nat :=
  let m := s.member i
  match commitGuarded args maxCommitAttempts s.store m.replica with
  | (store, r, .ok seq) =>
      ({ s.setMember i { m with replica := r } with
          store := store
          committed := s.committed ++ [args.entry seq] }, .ok seq)
  | (store, r, .error e) =>
      ({ s.setMember i { m with replica := r } with store := store }, .error e)

def deferGc (s : Site ι) (i : ι) (paths : List String) : Site ι :=
  s.setMember i { s.member i with pendingGc := (s.member i).pendingGc ++ paths }

/-- A commit, and after it the paths that are no longer needed. -/
def commitThenGc (s : Site ι) (i : ι) (args : CommitArgs) (paths : List String) : Site ι :=
  match s.commit i args with
  | (s, .ok _) => s.deferGc i paths
  | (s, .error _) => s

/-- A put under the next file number. -/
def putOutput (s : Site ι) (i : ι) (out : Nat → FileMeta) : Site ι × Except IoError FileMeta :=
  let m := s.member i
  let output := out m.fileSeq
  let s := s.setMember i { m with fileSeq := m.fileSeq + 1 }
  match s.store.put output.path .data with
  | .error e => (s, .error e)
  | .ok store => ({ s with store := store }, .ok output)

/-- `flush_all`. -/
def flush (s : Site ι) (i : ι) (size : List Row → Nat) : Site ι :=
  let m := s.member i
  if owned m.node = [] then s
  else
    let done := (owned m.node).foldl (fun f p => flushOne size f p.1 p.2)
      ⟨s.store, m.node.schemas, m.fileSeq, [], 0⟩
    let node := { m.node with buffers := ∅, schemas := done.schemas }
    let s := { s.setMember i { m with node := node, fileSeq := done.fileSeq } with
      store := done.store }
    match s.commit i ⟨done.metas, [], [], [], [], false⟩ with
    | (s, .error _) => s
    | (s, .ok _) =>
        if done.failed = 0 then
          s.setMember i { s.member i with node := { (s.member i).node with wal := [] } }
        else s

/-- One group of `compact_once`; `rows` are the merged rows. -/
def compact (s : Site ι) (i : ι) (files : List FileMeta) (rows : List Row) (size : Nat) : Site ι :=
  match files with
  | [] => s
  | f :: _ =>
      let out := fun seq =>
        outputMeta .compacted f.key f.partition rows (timeBounds rows).2 seq size
      match s.putOutput i out with
      | (s, .error _) => s
      | (s, .ok output) =>
          match s.commit i ⟨[output], files.map FileMeta.path, [], [], [], true⟩ with
          | (s, .ok _) => s.deferGc i (files.map FileMeta.path)
          | (s, .error (.alreadyExists _)) => s.deferGc i [output.path]
          | (s, .error _) => s

/-- One file of `apply_tombstones_once`; `kept` are the rows that stay. -/
def rewrite (s : Site ι) (i : ι) (f : FileMeta) (kept : List Row) (size : Nat) : Site ι :=
  if kept = [] then s.commitThenGc i ⟨[], [f.path], [], [], [], false⟩ [f.path]
  else
    let out := fun seq => outputMeta .rewritten f.key f.partition kept (timeBounds kept).2 seq size
    match s.putOutput i out with
    | (s, .error _) => s
    | (s, .ok output) => s.commitThenGc i ⟨[output], [f.path], [], [], [], false⟩ [f.path]

/-- `enforce_retention`. -/
def retire (s : Site ι) (i : ι) (files : List FileMeta) : Site ι :=
  if files = [] then s
  else s.commitThenGc i ⟨[], files.map FileMeta.path, [], [], [], false⟩ (files.map FileMeta.path)

/-- Tombstones, declarations and drops; a drop also gives its files to the
collector. -/
def record (s : Site ι) (i : ι) (tombstones : List Tombstone) (schemas : List TableSchema)
    (drops : List DroppedTable) : Site ι :=
  let files := (s.member i).replica.index.files.allFiles.filter fun f =>
    drops.any fun d => f.key = (d.db, d.table)
  s.commitThenGc i ⟨[], [], tombstones, schemas, drops, false⟩ (files.map FileMeta.path)

end Site

variable {ι : Type} [DecidableEq ι]

/-- The files of a task are files the member's own catalog lists. -/
def siteStep (fl : FloatOps) (s : Site ι) : SiteAct ι → Option (Site ι)
  | .write i c w =>
      some (s.setMember i { s.member i with node := ((s.member i).node.write fl c w).1 })
  | .flush i size => some (s.flush i size)
  | .compact i files rows size =>
      if (∀ f ∈ files, f ∈ (s.member i).replica.index.files.allFiles) ∧
          ∀ f ∈ files, ∀ g ∈ files, groupKey f = groupKey g then
        some (s.compact i files rows size)
      else none
  | .rewrite i f kept size =>
      if f ∈ (s.member i).replica.index.files.allFiles then some (s.rewrite i f kept size) else none
  | .retire i files =>
      if ∀ f ∈ files, f ∈ (s.member i).replica.index.files.allFiles then some (s.retire i files)
      else none
  | .record i tombstones schemas drops => some (s.record i tombstones schemas drops)
  | .collect i path =>
      if path ∈ (s.member i).pendingGc then
        some { s.setMember i { s.member i with
            pendingGc := (s.member i).pendingGc.filter (· ≠ path) } with
          store := s.store.remove path }
      else none
  | .catchUp i =>
      match s.store.catchUp (s.member i).replica with
      | .ok r => some (s.setMember i { s.member i with replica := r })
      | .error _ => some s

/-- No line goes to a table below `catalog/manifest`. -/
def siteOk (fl : FloatOps) (_ : Site ι) : SiteAct ι → Prop
  | .write _ c _ => ∀ l ∈ c.lines fl, ¬ Shadows (c.db, l.table)
  | _ => True

instance (fl : FloatOps) (s : Site ι) : (a : SiteAct ι) → Decidable (siteOk fl s a)
  | .write _ c _ => inferInstanceAs (Decidable (∀ l ∈ c.lines fl, _))
  | .flush .. | .compact .. | .rewrite .. | .retire .. | .record .. | .collect .. | .catchUp .. =>
      inferInstanceAs (Decidable True)

/-- An empty store, and members that start with nothing in their buffers. -/
def Site.start (n : Ingest.Node) : Site ι :=
  ⟨.empty, fun _ => ⟨{ n with buffers := ∅ }, .fresh, 0, []⟩, []⟩

section Placement

/-- The table of a file and the file itself lie outside the manifest. -/
def Placed (f : FileMeta) : Prop := ¬ Shadows f.key ∧ Outside f.path

theorem placed_outputMeta (kind : FileKind) {key : TableKey} (h : ¬ Shadows key)
    (partition : String) (rows : List Row) (maxTs : Int) (seq size : Nat) :
    Placed (outputMeta kind key partition rows maxTs seq size) :=
  ⟨h, (outside_dataPath kind key.1 key.2 partition maxTs seq).mpr h⟩

def AllPlaced (files : List FileMeta) : Prop := ∀ f ∈ files, Placed f

theorem AllPlaced.applyEntry {c : Index} {e : ManifestEntry} (h : AllPlaced c.files.allFiles)
    (he : AllPlaced e.addFiles) : AllPlaced (Catalog.applyEntry c e).files.allFiles := by
  intro f hf
  have hmem := (allFiles_applyEntry c e).mem_iff.mp hf
  rcases List.mem_append.mp (List.mem_of_mem_filter hmem) with hold | hnew
  · exact h f (List.mem_of_mem_filter hold)
  · exact he f hnew

theorem AllPlaced.foldl {entries : List ManifestEntry} {c : Index}
    (h : AllPlaced c.files.allFiles) (he : ∀ e ∈ entries, AllPlaced e.addFiles) :
    AllPlaced (entries.foldl Catalog.applyEntry c).files.allFiles := by
  induction entries generalizing c with
  | nil => exact h
  | cons e rest ih =>
      obtain ⟨hhead, hrest⟩ := List.forall_mem_cons.mp he
      exact ih (h.applyEntry hhead) hrest

variable {store : LocalStore} {committed : List ManifestEntry}

theorem putIfAbsent_cases {path : String} {c : Contents} {store' : LocalStore} {created : Bool}
    (h : store.putIfAbsent path c = .ok (store', created)) :
    (created = false ∧ store' = store) ∨
      (created = true ∧ store.get path = none ∧ store' = store.write path c) := by
  unfold LocalStore.putIfAbsent at h
  split at h
  · cases h
  · split at h
    · obtain ⟨rfl, rfl⟩ := Prod.mk.inj (Except.ok.inj h)
      exact .inl ⟨rfl, rfl⟩
    · next hfree =>
        obtain ⟨rfl, rfl⟩ := Prod.mk.inj (Except.ok.inj h)
        rw [Bool.or_eq_true, not_or, Bool.not_eq_true, Option.isSome_eq_false_iff,
          Option.isNone_iff_eq_none] at hfree
        exact .inr ⟨rfl, hfree.1, rfl⟩

/-- What a commit leaves of the store: one more entry, or what was there. -/
theorem commitGuarded_spec {args : CommitArgs} (hargs : AllPlaced args.addFiles)
    (hheld : Holding store committed) (hplaced : ∀ e ∈ committed, AllPlaced e.addFiles)
    (attempts : Nat) {r : Replica} (hr : AllPlaced r.index.files.allFiles) :
    AllPlaced (commitGuarded args attempts store r).2.1.index.files.allFiles ∧
      match (commitGuarded args attempts store r).2.2 with
      | .ok seq => Holding (commitGuarded args attempts store r).1 (committed ++ [args.entry seq])
      | .error _ => Holding (commitGuarded args attempts store r).1 committed := by
  induction attempts generalizing r with
  | zero => exact ⟨hr, hheld⟩
  | succ attempts ih =>
      unfold commitGuarded
      split
      · exact ⟨hr, hheld⟩
      · split
        · exact ⟨hr, hheld⟩
        · next hput =>
            rcases putIfAbsent_cases hput with ⟨hfalse, _⟩ | ⟨_, hfree, rfl⟩
            · cases hfalse
            · exact ⟨hr.applyEntry hargs, hheld.write_entry (e := args.entry (r.seq + 1)) hfree rfl⟩
        · next hput =>
            rcases putIfAbsent_cases hput with ⟨_, rfl⟩ | ⟨htrue, _⟩
            · rw [hheld.catchUp]
              refine ih (hr.foldl ?_)
              intro e he
              have hmem := (List.mem_insertionSort _).mp he
              exact hplaced e ((List.mem_insertionSort ByKey).mp (List.mem_of_mem_filter hmem))
            · cases htrue

theorem put_spec (hheld : Holding store committed) {path : String} (hout : Outside path)
    {store' : LocalStore} (h : store.put path .data = .ok store') : Holding store' committed := by
  unfold LocalStore.put at h
  split at h
  · cases h
  · obtain rfl := Except.ok.inj h
    exact hheld.write_outside hout .data

theorem putPieces_spec {key : TableKey} (hkey : ¬ Shadows key) (size : List Row → Nat)
    (pieces : List (String × List Row)) {store : LocalStore} (hheld : Holding store committed)
    (seq : Nat) :
    Holding (putPieces key size pieces store seq).1 committed ∧
      ∀ metas, (putPieces key size pieces store seq).2.2 = .ok metas → AllPlaced metas := by
  induction pieces generalizing store seq with
  | nil =>
      refine ⟨hheld, ?_⟩
      rintro metas heq f hf
      obtain rfl := Except.ok.inj heq
      cases hf
  | cons piece rest ih =>
      obtain ⟨partition, rows⟩ := piece
      have hout := placed_outputMeta .fresh hkey partition rows (timeBounds rows).2 seq (size rows)
      unfold putPieces
      simp only
      split
      · refine ⟨hheld, ?_⟩
        intro metas heq
        cases heq
      · next store' hput =>
          obtain ⟨hrest, hmetas⟩ := ih (put_spec hheld hout.2 hput) (seq + 1)
          split
          · next heq =>
              rw [heq] at hrest
              refine ⟨hrest, ?_⟩
              intro metas hfail
              cases hfail
          · next metas heq =>
              rw [heq] at hrest hmetas
              refine ⟨hrest, ?_⟩
              intro all hall
              obtain rfl := Except.ok.inj hall
              exact List.forall_mem_cons.mpr ⟨hout, hmetas metas rfl⟩

end Placement

section Write

variable {fl : FloatOps}

theorem mem_buffers_appendLines (fl : FloatOps) {db : String} (est : String → Established)
    (lines : List ParsedLine) {n : Ingest.Node} {key : TableKey}
    (h : key ∈ (n.appendLines fl db est lines).1.buffers) :
    key ∈ n.buffers ∨ ∃ l ∈ lines, key = (db, l.table) := by
  induction lines generalizing n with
  | nil => exact .inl h
  | cons line rest ih =>
      have hinsert : ∀ b : Buffer, key ∈ n.buffers.insert (db, line.table) b →
          key ∈ n.buffers ∨ ∃ l ∈ line :: rest, key = (db, l.table) := by
        intro b hmem
        rcases (AList.mem_insert _).mp hmem with rfl | hmem
        · exact .inr ⟨line, List.mem_cons_self, rfl⟩
        · exact .inl hmem
      simp only [Ingest.Node.appendLines] at h
      split at h
      · exact hinsert _ h
      · rcases ih h with hmem | ⟨l, hl, rfl⟩
        · exact hinsert _ hmem
        · exact .inr ⟨l, List.mem_cons_of_mem _ hl, rfl⟩

theorem noteAll_buffers (keys : List TableKey) (n : Ingest.Node) :
    (n.noteAll keys).1.buffers = n.buffers := by
  induction keys generalizing n with
  | nil => rfl
  | cons key rest ih =>
      have hnote : (n.noteColumns key).1.buffers = n.buffers := by
        unfold Ingest.Node.noteColumns
        simp only
        split
        · split <;> rfl
        · rfl
      simp only [Ingest.Node.noteAll]
      split
      · next heq =>
          rw [heq] at hnote
          exact hnote
      · next heq =>
          rw [heq] at hnote
          exact (ih _).trans hnote

theorem mem_buffers_applyLines {db : String} (lines : List ParsedLine) {n : Ingest.Node}
    {key : TableKey} (h : key ∈ (n.applyLines fl db lines).1.buffers) :
    key ∈ n.buffers ∨ ∃ l ∈ lines, key = (db, l.table) := by
  have hobserve : ∀ m : Ingest.Node, (m.observeAll db lines).buffers = m.buffers := by
    intro m
    unfold Ingest.Node.observeAll
    split <;> rfl
  refine mem_buffers_appendLines fl (fun table => n.established (db, table)) lines ?_
  unfold Ingest.Node.applyLines at h
  split at h
  · next heq =>
      rw [heq]
      exact h
  · next m heq =>
      have hnoted := noteAll_buffers (Ingest.Node.touched db lines) (m.observeAll db lines)
      rw [heq]
      rw [← hobserve m, ← hnoted]
      split at h <;> next hnote => rw [hnote]; exact h

/-- A write gives a buffer only to the tables of its own lines. -/
theorem mem_buffers_write {n : Ingest.Node} {c : Ingest.Call} {w : Weather} {key : TableKey}
    (h : key ∈ (n.write fl c w).1.buffers) :
    key ∈ n.buffers ∨ ∃ l ∈ c.lines fl, key = (c.db, l.table) := by
  unfold Ingest.Node.write at h
  cases hcheck : n.check fl c with
  | error e =>
      rw [hcheck] at h
      exact .inl h
  | ok r =>
      obtain ⟨mult, text, lines⟩ := r
      obtain ⟨htext, hread⟩ := check_readLines hcheck
      have hmult := check_mult hcheck
      have hlines : c.lines fl = lines := by
        simp [Ingest.Call.lines, hmult, htext, hread, Except.toOption]
      rw [hcheck] at h
      simp only at h
      split at h
      · exact .inl h
      · split at h
        · exact .inl h
        · have happlied : key ∈ (({ n with wal := n.wal ++ [⟨c.db, mult, c.body⟩] } :
              Ingest.Node).apply fl c.db text mult w.nowNs).1.buffers := by
            split at h <;> next heq => rw [heq]; exact h
          rw [apply_of_readLines hread] at happlied
          rcases mem_buffers_applyLines _ happlied with hold | ⟨l, hl, rfl⟩
          · exact .inl hold
          · obtain ⟨line, hline, rfl⟩ := List.mem_map.mp hl
            exact .inr ⟨line, hlines ▸ hline, rfl⟩

end Write

section Invariant

structure Member.Inv (m : Member) : Prop where
  buffers : ∀ key ∈ m.node.buffers, ¬ Shadows key
  files : AllPlaced m.replica.index.files.allFiles
  gc : ∀ path ∈ m.pendingGc, Outside path

structure Site.Inv (s : Site ι) : Prop where
  held : Holding s.store s.committed
  placed : ∀ e ∈ s.committed, AllPlaced e.addFiles
  members : ∀ i, (s.member i).Inv

variable {s : Site ι} {i : ι}

theorem Site.Inv.setMember (h : s.Inv) (i : ι) (m : Member) (hm : m.Inv) :
    (s.setMember i m).Inv := by
  refine ⟨h.held, h.placed, ?_⟩
  intro j
  by_cases hj : j = i
  · subst hj
    simpa [Site.setMember] using hm
  · simpa [Site.setMember, hj] using h.members j

theorem Site.Inv.deferGc (h : s.Inv) {paths : List String} (hpaths : ∀ path ∈ paths, Outside path) :
    (s.deferGc i paths).Inv := by
  refine h.setMember i _ ⟨(h.members i).buffers, (h.members i).files, ?_⟩
  intro path hpath
  rcases List.mem_append.mp hpath with hpath | hpath
  · exact (h.members i).gc path hpath
  · exact hpaths path hpath

theorem Site.Inv.commit (h : s.Inv) (i : ι) (args : CommitArgs) (hargs : AllPlaced args.addFiles) :
    (s.commit i args).1.Inv := by
  obtain ⟨hfiles, hstore⟩ := commitGuarded_spec hargs h.held h.placed maxCommitAttempts
    (h.members i).files
  unfold Site.commit
  simp only
  split
  · next store r seq heq =>
      rw [heq] at hfiles hstore
      have hmember := h.setMember i { s.member i with replica := r }
        ⟨(h.members i).buffers, hfiles, (h.members i).gc⟩
      refine ⟨hstore, ?_, hmember.members⟩
      intro e he
      rcases List.mem_append.mp he with he | he
      · exact h.placed e he
      · rw [List.mem_singleton.mp he]
        exact hargs
  · next store r e heq =>
      rw [heq] at hfiles hstore
      have hmember := h.setMember i { s.member i with replica := r }
        ⟨(h.members i).buffers, hfiles, (h.members i).gc⟩
      exact ⟨hstore, h.placed, hmember.members⟩

theorem Site.Inv.putOutput (h : s.Inv) {out : Nat → FileMeta} (hout : ∀ seq, Placed (out seq)) :
    (s.putOutput i out).1.Inv ∧ ∀ f, (s.putOutput i out).2 = .ok f → Placed f := by
  have hmember := h.setMember i { s.member i with fileSeq := (s.member i).fileSeq + 1 }
    ⟨(h.members i).buffers, (h.members i).files, (h.members i).gc⟩
  unfold Site.putOutput
  simp only
  split
  · exact ⟨hmember, fun f hf => by cases hf⟩
  · next store hput =>
      refine ⟨⟨put_spec h.held (hout _).2 hput, h.placed, hmember.members⟩, ?_⟩
      intro f hf
      obtain rfl := Except.ok.inj hf
      exact hout _

theorem Site.Inv.compact (h : s.Inv) {files : List FileMeta} (hfiles : AllPlaced files)
    (rows : List Row) (size : Nat) : (s.compact i files rows size).Inv := by
  unfold Site.compact
  split
  · exact h
  · next f rest =>
      have hf : Placed f := hfiles f List.mem_cons_self
      have hgc : ∀ path ∈ (f :: rest).map FileMeta.path, Outside path := by
        intro path hpath
        obtain ⟨g, hg, rfl⟩ := List.mem_map.mp hpath
        exact (hfiles g hg).2
      obtain ⟨hput, hout⟩ := h.putOutput (i := i) fun seq =>
        placed_outputMeta .compacted hf.1 f.partition rows (timeBounds rows).2 seq size
      simp only
      split
      · next heq =>
          rw [heq] at hput
          exact hput
      · next output heq =>
          rw [heq] at hput hout
          have houtput : AllPlaced [output] := fun g hg => by
            rw [List.mem_singleton.mp hg]
            exact hout output rfl
          have hcommit := hput.commit i
            ⟨[output], (f :: rest).map FileMeta.path, [], [], [], true⟩ houtput
          split
          · next heq =>
              rw [heq] at hcommit
              exact hcommit.deferGc hgc
          · next heq =>
              rw [heq] at hcommit
              refine hcommit.deferGc fun path hpath => ?_
              rw [List.mem_singleton.mp hpath]
              exact (hout output rfl).2
          · next heq =>
              rw [heq] at hcommit
              exact hcommit

theorem Site.Inv.commitThenGc (h : s.Inv) (i : ι) {args : CommitArgs}
    (hargs : AllPlaced args.addFiles) {paths : List String}
    (hpaths : ∀ path ∈ paths, Outside path) : (s.commitThenGc i args paths).Inv := by
  have hcommit := h.commit i args hargs
  unfold Site.commitThenGc
  split
  · next heq =>
      rw [heq] at hcommit
      exact hcommit.deferGc hpaths
  · next heq =>
      rw [heq] at hcommit
      exact hcommit

theorem AllPlaced.outside {files : List FileMeta} (h : AllPlaced files) :
    ∀ path ∈ files.map FileMeta.path, Outside path := by
  intro path hpath
  obtain ⟨f, hf, rfl⟩ := List.mem_map.mp hpath
  exact (h f hf).2

theorem allPlaced_nil : AllPlaced [] := fun _ hf => by cases hf

theorem allPlaced_singleton {f : FileMeta} (h : Placed f) : AllPlaced [f] := by
  intro g hg
  rw [List.mem_singleton.mp hg]
  exact h

theorem Site.Inv.rewrite (h : s.Inv) {f : FileMeta} (hf : Placed f) (kept : List Row)
    (size : Nat) : (s.rewrite i f kept size).Inv := by
  have hpaths : ∀ path ∈ [f.path], Outside path := (allPlaced_singleton hf).outside
  unfold Site.rewrite
  split
  · exact h.commitThenGc i allPlaced_nil hpaths
  · obtain ⟨hput, hout⟩ := h.putOutput (i := i) fun seq =>
      placed_outputMeta .rewritten hf.1 f.partition kept (timeBounds kept).2 seq size
    simp only
    split
    · next heq =>
        rw [heq] at hput
        exact hput
    · next output heq =>
        rw [heq] at hput hout
        exact hput.commitThenGc i (allPlaced_singleton (hout output rfl)) hpaths

theorem Site.Inv.retire (h : s.Inv) {files : List FileMeta} (hfiles : AllPlaced files) :
    (s.retire i files).Inv := by
  unfold Site.retire
  split
  · exact h
  · exact h.commitThenGc i allPlaced_nil hfiles.outside

theorem Site.Inv.record (h : s.Inv) (tombstones : List Tombstone) (schemas : List TableSchema)
    (drops : List DroppedTable) : (s.record i tombstones schemas drops).Inv := by
  refine h.commitThenGc i allPlaced_nil (AllPlaced.outside ?_)
  intro f hf
  exact (h.members i).files f (List.mem_of_mem_filter hf)

/-- One table of a flush. -/
theorem flushOne_spec {committed : List ManifestEntry} (size : List Row → Nat) {f : Flushing}
    {key : TableKey} (hkey : ¬ Shadows key) (b : TableBuffer)
    (h : Holding f.store committed ∧ AllPlaced f.metas) :
    Holding (flushOne size f key b).store committed ∧ AllPlaced (flushOne size f key b).metas := by
  obtain ⟨hheld, hmetas⟩ := putPieces_spec hkey size (prepare b.tagNames b.rows) h.1 f.fileSeq
  unfold flushOne
  split
  · exact h
  · simp only
    split
    · exact ⟨hheld, h.2⟩
    · next metas hok =>
        refine ⟨hheld, ?_⟩
        intro g hg
        rcases List.mem_append.mp hg with hg | hg
        · exact h.2 g hg
        · exact hmetas metas hok g hg

theorem flushTables_spec {committed : List ManifestEntry} (size : List Row → Nat)
    (tables : List (TableKey × TableBuffer)) (hkeys : ∀ p ∈ tables, ¬ Shadows p.1) {f : Flushing}
    (h : Holding f.store committed ∧ AllPlaced f.metas) :
    Holding (tables.foldl (fun f p => flushOne size f p.1 p.2) f).store committed ∧
      AllPlaced (tables.foldl (fun f p => flushOne size f p.1 p.2) f).metas := by
  induction tables generalizing f with
  | nil => exact h
  | cons p rest ih =>
      obtain ⟨hp, hrest⟩ := List.forall_mem_cons.mp hkeys
      exact ih hrest (flushOne_spec size hp p.2 h)

theorem Site.Inv.flush (h : s.Inv) (size : List Row → Nat) : (s.flush i size).Inv := by
  have hkeys : ∀ p ∈ owned (s.member i).node, ¬ Shadows p.1 := by
    intro p hp
    obtain ⟨q, hq, rfl⟩ := List.mem_map.mp (List.mem_of_mem_filter hp)
    exact (h.members i).buffers q.1 (List.mem_map.mpr ⟨q, hq, rfl⟩)
  obtain ⟨hheld, hmetas⟩ := flushTables_spec size (owned (s.member i).node) hkeys
    (f := ⟨s.store, (s.member i).node.schemas, (s.member i).fileSeq, [], 0⟩)
    ⟨h.held, allPlaced_nil⟩
  unfold Site.flush
  simp only
  split
  · exact h
  · generalize (owned (s.member i).node).foldl (fun f p => flushOne size f p.1 p.2)
      ⟨s.store, (s.member i).node.schemas, (s.member i).fileSeq, [], 0⟩ = done at hheld hmetas ⊢
    have hmember := h.setMember i
      { s.member i with
        node := { (s.member i).node with buffers := ∅, schemas := done.schemas }
        fileSeq := done.fileSeq } ⟨by simp, (h.members i).files, (h.members i).gc⟩
    have hflushed : Site.Inv { s.setMember i
        { s.member i with
          node := { (s.member i).node with buffers := ∅, schemas := done.schemas }
          fileSeq := done.fileSeq } with store := done.store } :=
      ⟨hheld, h.placed, hmember.members⟩
    have hcommit := hflushed.commit i ⟨done.metas, [], [], [], [], false⟩ hmetas
    split
    · next heq =>
        rw [heq] at hcommit
        exact hcommit
    · next heq =>
        rw [heq] at hcommit
        split
        · exact hcommit.setMember i _ ⟨(hcommit.members i).buffers, (hcommit.members i).files,
            (hcommit.members i).gc⟩
        · exact hcommit

theorem Site.Inv.step {fl : FloatOps} {t : Site ι} {a : SiteAct ι} (h : s.Inv)
    (hok : siteOk fl s a) (hstep : siteStep fl s a = some t) : t.Inv := by
  cases a with
  | write i c w =>
      obtain rfl := Option.some.inj hstep
      refine h.setMember i _ ⟨?_, (h.members i).files, (h.members i).gc⟩
      intro key hkey
      rcases mem_buffers_write hkey with hold | ⟨l, hl, rfl⟩
      · exact (h.members i).buffers key hold
      · exact hok l hl
  | flush i size =>
      obtain rfl := Option.some.inj hstep
      exact h.flush size
  | compact i files rows size =>
      simp only [siteStep] at hstep
      split at hstep
      · next hguard =>
          obtain rfl := Option.some.inj hstep
          exact h.compact (fun f hf => (h.members i).files f (hguard.1 f hf)) rows size
      · cases hstep
  | rewrite i f kept size =>
      simp only [siteStep] at hstep
      split at hstep
      · next hguard =>
          obtain rfl := Option.some.inj hstep
          exact h.rewrite ((h.members i).files f hguard) kept size
      · cases hstep
  | retire i files =>
      simp only [siteStep] at hstep
      split at hstep
      · next hguard =>
          obtain rfl := Option.some.inj hstep
          exact h.retire fun f hf => (h.members i).files f (hguard f hf)
      · cases hstep
  | record i tombstones schemas drops =>
      obtain rfl := Option.some.inj hstep
      exact h.record tombstones schemas drops
  | collect i path =>
      simp only [siteStep] at hstep
      split at hstep
      · next hguard =>
          obtain rfl := Option.some.inj hstep
          have hmember := h.setMember i
            { s.member i with pendingGc := (s.member i).pendingGc.filter (· ≠ path) }
            ⟨(h.members i).buffers, (h.members i).files,
              fun p hp => (h.members i).gc p (List.mem_of_mem_filter hp)⟩
          exact ⟨h.held.remove_outside ((h.members i).gc path hguard), h.placed, hmember.members⟩
      · cases hstep
  | catchUp i =>
      simp only [siteStep, h.held.catchUp] at hstep
      obtain rfl := Option.some.inj hstep
      refine h.setMember i _ ⟨(h.members i).buffers, (h.members i).files.foldl ?_,
        (h.members i).gc⟩
      intro e he
      have hmem := (List.mem_insertionSort _).mp he
      exact h.placed e ((List.mem_insertionSort ByKey).mp (List.mem_of_mem_filter hmem))

omit [DecidableEq ι] in
theorem Site.inv_start (n : Ingest.Node) : (Site.start n : Site ι).Inv := by
  refine ⟨Holding.empty, ?_, fun i => ⟨?_, allPlaced_nil, ?_⟩⟩
  · intro e he
    cases he
  · intro key hkey
    simp [Site.start] at hkey
  · intro path hpath
    cases hpath

theorem Site.Inv.run {fl : FloatOps} {t : Site ι} {acts : List (SiteAct ι)}
    (run : Run (siteStep fl) (siteOk fl) s acts t) (h : s.Inv) : t.Inv :=
  run.invariant (fun _ _ _ hinv hok hstep => hinv.step hok hstep) h

end Invariant

section Isolation

/-- As long as no line goes to a table below `catalog/manifest`, what `list`
finds there are the committed entries at their keys, `load` folds them and
`catch_up` folds those past its head. -/
theorem manifest_namespace_isolated {fl : FloatOps} {n : Ingest.Node} {acts : List (SiteAct ι)}
    {s : Site ι} (run : Run (siteStep fl) (siteOk fl) (Site.start n) acts s) :
    (∀ path ∈ s.store.list "catalog/manifest", ∃ e ∈ s.committed,
        path = manifestPath e.seq ∧ s.store.get path = some (.entry e)) ∧
      (∃ r, s.store.load = .ok r ∧
        r.index = (inKeyOrder s.committed).foldl applyEntry .empty) ∧
      ∀ r, s.store.catchUp r =
        .ok (r.catchUp ((inKeyOrder s.committed).filter fun e => r.seq < e.seq)) := by
  have hheld := (Site.Inv.run run (Site.inv_start n)).held
  refine ⟨?_, ⟨_, hheld.load, rfl⟩, hheld.catchUp⟩
  intro path hpath
  rw [hheld.list_eq] at hpath
  obtain ⟨e, he, rfl⟩ := List.mem_map.mp hpath
  have hmem : e ∈ s.committed := (List.mem_insertionSort ByKey).mp he
  exact ⟨e, hmem, rfl, hheld.there e hmem⟩

/-- The node of `emptyBoot`. -/
def quietNode : Ingest.Node := openNode noFloats emptyBoot []

/-- Member `false` writes and flushes, member `true` catches up. -/
def siteActs (db body : String) : List (SiteAct Bool) :=
  [.write false ⟨db, utf8 body, none⟩ (clear 0), .flush false List.length, .catchUp true]

theorem ordinary_site_isolated :
    ∃ s, Run (siteStep noFloats) (siteOk noFloats) (Site.start quietNode)
        (siteActs "db" "m v=1i 5") s ∧
      s.committed ≠ [] ∧
      ∀ path ∈ s.store.list "catalog/manifest", ∃ e ∈ s.committed,
        path = manifestPath e.seq ∧ s.store.get path = some (.entry e) := by
  obtain ⟨s, run, hne⟩ := exists_run_with (siteStep noFloats) (siteOk noFloats)
    (Site.start quietNode) (siteActs "db" "m v=1i 5")
    (fun s => s.committed ≠ []) (by decide +kernel)
  exact ⟨s, run, hne, (manifest_namespace_isolated run).1⟩

/-- The table `manifest` of the database `catalog`: its first file is listed
among the entries, and neither `load` nor `catch_up` gets past it. -/
theorem catalog_database_breaks_load :
    ∃ s : Site Bool, Run (siteStep noFloats) (fun _ _ => True) (Site.start quietNode)
        (siteActs "catalog" "manifest v=1i 5") s ∧
      (∃ path ∈ s.store.list "catalog/manifest", s.store.get path = some .data) ∧
      s.store.load = .error .invalidData ∧
      s.store.catchUp (s.member true).replica = .error .invalidData := by
  obtain ⟨s, run, hfile, hload, hcatch⟩ := exists_run_with (siteStep noFloats)
    (fun _ _ => True) (Site.start quietNode)
    (siteActs "catalog" "manifest v=1i 5")
    (fun s => (∃ path ∈ s.store.list "catalog/manifest", s.store.get path = some .data) ∧
      s.store.load.map Replica.seq = .error .invalidData ∧
      (s.store.catchUp (s.member true).replica).map Replica.seq = .error .invalidData)
    (by decide +kernel)
  have herror : ∀ x : Except IoError Replica, x.map Replica.seq = .error .invalidData →
      x = .error .invalidData := by
    rintro (e | r) heq
    · exact congrArg _ (Except.error.inj heq)
    · cases heq
  exact ⟨s, run, hfile, herror _ hload, herror _ hcatch⟩

end Isolation

end TimeLake.Cluster
