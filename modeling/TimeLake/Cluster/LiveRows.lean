import TimeLake.Cluster.Objects
import Mathlib.Data.List.Count

/-!
The rows the catalog's files hold for a table. Compaction, tombstone rewrites,
retention and drops each work from a snapshot, and the log may have moved on
when they commit. A merge goes through the fence. A rewrite does not, so its
commit is sound only while the file it replaces is still listed; under that
condition no commit brings a row back or doubles it.
-/

namespace TimeLake.Cluster

open TimeLake.Library TimeLake.Catalog TimeLake.Rows TimeLake.Store

variable {ι : Type}

/-- The rows of the listed files of a table. -/
def liveRows (s : State ι) (key : TableKey) : List Row :=
  ((listed s.log).filter fun f => f.key = key).flatMap fun f =>
    (s.objects (objectOf f)).getD []

/-- Whether a tombstone of the table matches the row. -/
def hidden (log : List ManifestEntry) (key : TableKey) (r : Row) : Bool :=
  (indexOf log).tombstones.any fun t => t.db = key.1 && t.table = key.2 && matchesTombstone t r

/-- The rows a reader sees: those no tombstone of the table matches. -/
def visibleRows (s : State ι) (key : TableKey) : List Row :=
  (liveRows s key).filter fun r => !hidden s.log key r

/-- The file a rewrite is about to swap for its output. -/
def rewriteInput (s : State ι) : Action ι → Option FileMeta
  | .rewriteCommit i k =>
      match s.task i k with
      | some (.rewriteCommit _ _ _ input _) => some input
      | _ => none
  | _ => none

/-- The swap of a rewrite is only taken while its input is still listed. -/
def inputListed (s : State ι) (a : Action ι) : Prop :=
  ∀ input ∈ rewriteInput s a, ∃ f ∈ listed s.log, f.path = input.path

instance (s : State ι) (a : Action ι) : Decidable (inputListed s a) :=
  inferInstanceAs (Decidable (∀ input ∈ rewriteInput s a, _))

def rewritesSafely (s : State ι) (a : Action ι) : Prop := fresh s a ∧ inputListed s a

/-- How often the files of a table hold a row. -/
def copies (content : AbsPath → List Row) (key : TableKey) (r : Row) (files : List FileMeta) :
    Nat :=
  (rowsIn content (files.filter fun f => f.key = key)).count r

section Copies

variable (content : AbsPath → List Row) (key : TableKey) (r : Row)

theorem copies_append (xs ys : List FileMeta) :
    copies content key r (xs ++ ys) = copies content key r xs + copies content key r ys := by
  simp [copies, rowsIn]

theorem copies_perm {xs ys : List FileMeta} (h : xs.Perm ys) :
    copies content key r xs = copies content key r ys :=
  ((h.filter _).flatMap_right _).count_eq r

theorem copies_subperm {xs ys : List FileMeta} (h : xs.Subperm ys) :
    copies content key r xs ≤ copies content key r ys := by
  obtain ⟨l, hperm, hsub⟩ := h
  obtain ⟨rest, hrest⟩ := hsub.exists_perm_append
  rw [copies_perm content key r hrest, copies_append, copies_perm content key r hperm]
  omega

theorem copies_singleton (f : FileMeta) :
    copies content key r [f] =
      if f.key = key then (content (objectOf f)).count r else 0 := by
  by_cases hkey : f.key = key
  · simp [copies, rowsIn, hkey]
  · simp [copies, rowsIn, hkey]

/-- Taking out listed files takes out their rows. -/
theorem copies_removed {files all : List FileMeta} (hnodup : files.Nodup) (hsub : files ⊆ all)
    {remove : List String} (hremove : ∀ f ∈ files, f.path ∈ remove) :
    copies content key r (all.filter fun f => !remove.contains f.path) +
      copies content key r files ≤ copies content key r all := by
  have hin : files.Subperm (all.filter fun f => remove.contains f.path) := by
    apply List.subperm_of_subset hnodup
    intro f hf
    exact List.mem_filter.mpr ⟨hsub hf, by simpa using hremove f hf⟩
  have hsplit := copies_perm content key r
    (List.filter_append_perm (fun f : FileMeta => remove.contains f.path) all)
  rw [copies_append] at hsplit
  have hfiles := copies_subperm content key r hin
  omega

/-- A merge holds no row more often than its files together. -/
theorem copies_merge {files : List FileMeta} {output : FileMeta}
    (hmerge : MergeOf content files output) :
    copies content key r [output] ≤ copies content key r files := by
  rw [copies_singleton]
  split
  · next hkey =>
      have hall : files.filter (fun f => f.key = key) = files := by
        rw [List.filter_eq_self]
        intro f hf
        have hgroup := hmerge.group f hf
        simp only [groupKey, Prod.mk.injEq] at hgroup
        simp only [decide_eq_true_eq, ← hkey, FileMeta.key, hgroup.1, hgroup.2.1]
      obtain ⟨hour, hpiece⟩ := hmerge.merged
      rw [copies, hall]
      exact hpiece.subperm.count_le r
  · exact Nat.zero_le _

theorem copies_encoded {table : FlushTable} {files : List FileMeta}
    (h : Encoded content table files []) :
    copies content key r files ≤ (table.rows.map fun x => (table.key, x)).count (key, r) := by
  by_cases hkey : table.key = key
  · have hall : files.filter (fun f => f.key = key) = files := by
      rw [List.filter_eq_self]
      intro f hf
      simp [h.key f hf, hkey]
    have hsplit := h.split
    rw [List.append_nil] at hsplit
    have hrows : rowsIn content files =
        (prepare table.columns table.rows).flatMap Prod.snd := by
      rw [← hsplit, List.flatMap_map, rowsIn]
    have hpair : (table.rows.map fun x => (table.key, x)).count (key, r) = table.rows.count r := by
      rw [hkey]
      exact List.count_map_of_injective _ _ (Prod.mk_right_injective key) r
    rw [copies, hall, hrows, hpair]
    exact count_prepareOrdered _ _ r
  · have hnone : files.filter (fun f => f.key = key) = [] := by
      rw [List.filter_eq_nil_iff]
      intro f hf
      simp [h.key f hf, hkey]
    rw [copies, hnone]
    exact Nat.zero_le _

/-- The files of a finished flush hold no row more often than its batches. -/
theorem copies_flush {current metas : List FileMeta} {done : List (TableKey × Row)}
    {todo : List FlushTable} (h : FlushInv content todo current metas done) :
    copies content key r metas ≤ done.count (key, r) := by
  obtain ⟨tables, rfl, rfl, hfinished⟩ := h.finished
  clear h
  induction tables with
  | nil => exact Nat.zero_le _
  | cons b rest ih =>
      rw [List.flatMap_cons, List.flatMap_cons, copies_append, List.count_append]
      have hhead := copies_encoded content key r (hfinished b List.mem_cons_self)
      have htail := ih fun b hb => hfinished b (List.mem_cons_of_mem _ hb)
      omega

theorem copies_entry (log : List ManifestEntry) (e : ManifestEntry) :
    copies content key r (listed (log ++ [e])) ≤
      copies content key r ((listed log).filter fun f => !e.removePaths.contains f.path) +
        copies content key r e.addFiles := by
  rw [← copies_append, copies_perm content key r (listed_snoc log e)]
  exact copies_subperm content key r List.filter_sublist.subperm

end Copies

section Step

variable {s t : State ι} {a : Action ι}

theorem count_liveRows (h : Inv s) (key : TableKey) (r : Row) :
    (liveRows s key).count r = copies s.content key r (listed s.log) := by
  have hrows : liveRows s key =
      rowsIn s.content ((listed s.log).filter fun f => f.key = key) := by
    unfold liveRows rowsIn
    rw [List.flatMap_def, List.flatMap_def]
    congr 1
    apply List.map_congr_left
    intro f hf
    rw [h.stored f (.inl (List.mem_of_mem_filter hf))]
    rfl
  rw [hrows, copies]

/-- A commit adds no copy of a row but those of its own flush. -/
theorem Commits.copies_le {i : ι} {k : Nat} {T : Task} {args : CommitArgs} {removed : List String}
    {stored : List (TableKey × Row)} {o : Option Task} (h : Inv s) (hlisted : inputListed s a)
    (htask : s.task i k = some T) (hcommits : Commits i k s.log a T args removed stored o)
    (key : TableKey) (r : Row) (seq : Nat) :
    copies s.content key r (listed (s.log ++ [args.entry seq])) ≤
      copies s.content key r (listed s.log) + stored.count (key, r) := by
  have hT := h.task i k T htask
  have hkept : ∀ remove : List String,
      copies s.content key r ((listed s.log).filter fun f => !remove.contains f.path) ≤
        copies s.content key r (listed s.log) :=
    fun remove => copies_subperm _ key r List.filter_sublist.subperm
  have hnothing : copies s.content key r [] = 0 := rfl
  refine (copies_entry s.content key r s.log (args.entry seq)).trans ?_
  cases hcommits with
  | flush current metas done =>
      have hflush : copies s.content key r metas ≤ stored.count (key, r) :=
        copies_flush s.content key r hT
      have := hkept []
      simp only [CommitArgs.entry]
      omega
  | compact seen groups files output hpresent =>
      obtain ⟨_, hfiles, hmerge⟩ := hT
      have hsub : files ⊆ listed s.log :=
        fun f hf => listed_of_path h (hfiles.added hf) (hpresent f hf)
      have hgone := copies_removed s.content key r hfiles.nodup hsub
        fun f hf => List.mem_map_of_mem hf
      have houtput := copies_merge s.content key r hmerge
      simp only [CommitArgs.entry, List.count_nil]
      omega
  | rewriteDrop ts todo n f =>
      have := hkept [f.path]
      simp only [CommitArgs.entry, List.count_nil]
      omega
  | rewrite ts todo n f output =>
      obtain ⟨_, hinput, hgroup, hsub⟩ := hT
      have hmem := listed_of_path h hinput (hlisted f (by simp [rewriteInput, htask]))
      have hpath : ∀ g ∈ [f], g.path ∈ [f.path] := by simp
      have hgone := copies_removed s.content key r (List.nodup_singleton f)
        (by simpa using hmem) hpath
      have houtput : copies s.content key r [output] ≤ copies s.content key r [f] := by
        rw [copies_singleton, copies_singleton]
        simp only [groupKey, Prod.mk.injEq] at hgroup
        have hkey : output.key = f.key := by rw [FileMeta.key, hgroup.1, hgroup.2.1, FileMeta.key]
        rw [hkey]
        split
        · exact hsub.count_le r
        · exact Nat.le_refl _
      simp only [CommitArgs.entry, List.count_nil]
      omega
  | retention =>
      have := hkept removed
      simp only [CommitArgs.entry, List.count_nil]
      omega
  | drop db table paths =>
      have := hkept []
      simp only [CommitArgs.entry, List.count_nil]
      omega

theorem mem_pushTombstone {known added : List Tombstone} {t : Tombstone} (h : t ∈ known) :
    t ∈ added.foldl pushTombstone known := by
  induction added generalizing known with
  | nil => exact h
  | cons x rest ih =>
      rw [List.foldl_cons]
      apply ih
      unfold pushTombstone
      split
      · exact h
      · exact List.mem_append_left _ h

theorem mem_dropTombstones {c : Index} {drops : List DroppedTable} {t : Tombstone}
    (h : t ∈ c.tombstones) (hkept : ∀ d ∈ drops, ¬ (t.db = d.db ∧ t.table = d.table)) :
    t ∈ (drops.foldl Index.dropTable c).tombstones := by
  induction drops generalizing c with
  | nil => exact h
  | cons d rest ih =>
      rw [List.foldl_cons]
      apply ih
      · have hd := hkept d List.mem_cons_self
        refine List.mem_filter.mpr ⟨h, ?_⟩
        rw [Decidable.not_and_iff_or_not] at hd
        simpa using hd
      · exact fun d' hd' => hkept d' (List.mem_cons_of_mem _ hd')

/-- A tombstone stays for as long as its table is not dropped. -/
theorem hidden_entry {log : List ManifestEntry} {e : ManifestEntry} {key : TableKey} {r : Row}
    (h : hidden log key r = true) (hkept : ∀ d ∈ e.dropTables, key ≠ (d.db, d.table)) :
    hidden (log ++ [e]) key r = true := by
  obtain ⟨t, ht, hmatch⟩ := List.any_eq_true.mp h
  refine List.any_eq_true.mpr ⟨t, ?_, hmatch⟩
  simp only [Bool.and_eq_true, decide_eq_true_eq] at hmatch
  rw [indexOf_snoc]
  apply mem_dropTombstones
  · exact mem_pushTombstone ht
  · rintro d hd ⟨hdb, htable⟩
    apply hkept d hd
    rw [← hdb, ← htable, hmatch.1.1, hmatch.1.2]

theorem liveRows_dropped {e : ManifestEntry} {key : TableKey} (hlog : t.log = s.log ++ [e])
    (hdrop : ∃ d ∈ e.dropTables, key = (d.db, d.table)) : liveRows t key = [] := by
  have hnone : (listed t.log).filter (fun f => f.key = key) = [] := by
    rw [List.filter_eq_nil_iff]
    intro f hf hkey
    rw [hlog] at hf
    obtain ⟨d, hd, heq⟩ := hdrop
    rw [decide_eq_true_eq] at hkey
    exact (mem_listed_snoc.mp hf).2 ⟨d, hd, hkey.trans heq⟩
  rw [liveRows, hnone, List.flatMap_nil]

theorem count_visibleRows (s : State ι) (key : TableKey) (r : Row) :
    (visibleRows s key).count r =
      if hidden s.log key r then 0 else (liveRows s key).count r := by
  split
  · next h =>
      rw [List.count_eq_zero]
      intro hmem
      simp [visibleRows, h] at hmem
  · next h =>
      have htrue : (!hidden s.log key r) = true := by simpa using h
      exact List.count_filter htrue

/-- An entry that adds no copies shows no row more often. -/
theorem visible_entry {e : ManifestEntry} {stored : List (TableKey × Row)}
    (hlog : t.log = s.log ++ [e]) (key : TableKey) (r : Row)
    (hlive : (liveRows t key).count r ≤ (liveRows s key).count r + stored.count (key, r)) :
    (visibleRows t key).count r ≤ (visibleRows s key).count r + stored.count (key, r) := by
  rw [count_visibleRows, count_visibleRows]
  by_cases hdrop : ∃ d ∈ e.dropTables, key = (d.db, d.table)
  · rw [liveRows_dropped hlog hdrop, List.count_nil, ite_self]
    exact Nat.zero_le _
  · have hkept : ∀ d ∈ e.dropTables, key ≠ (d.db, d.table) :=
      fun d hd heq => hdrop ⟨d, hd, heq⟩
    by_cases hs : hidden s.log key r = true
    · rw [hlog, if_pos (hidden_entry hs hkept)]
      exact Nat.zero_le _
    · rw [if_neg hs]
      split
      · exact Nat.zero_le _
      · exact hlive

/-- One step shows no row more often, but for what a flush stored. -/
theorem visible_step [DecidableEq ι] (h : Inv s) (hsafe : rewritesSafely s a)
    (hs : step s a = some t) :
    ∃ stored, t.flushed = s.flushed ++ stored ∧ ∀ key r,
      (visibleRows t key).count r ≤ (visibleRows s key).count r + stored.count (key, r) := by
  have hinv : Inv t := h.step hsafe.1 hs
  -- a step that leaves the log and the listed objects alone shows the same rows
  have hsame : (∀ f ∈ listed s.log, t.content (objectOf f) = s.content (objectOf f)) →
      t.log = s.log → t.flushed = s.flushed → ∃ stored, t.flushed = s.flushed ++ stored ∧
        ∀ key r, (visibleRows t key).count r ≤
          (visibleRows s key).count r + stored.count (key, r) := by
    intro hcontent hlog hflushed
    refine ⟨[], by rw [hflushed, List.append_nil], ?_⟩
    intro key r
    have hrows : rowsIn t.content ((listed s.log).filter fun f => f.key = key) =
        rowsIn s.content ((listed s.log).filter fun f => f.key = key) :=
      rowsIn_congr fun f hf => hcontent f (List.mem_of_mem_filter hf)
    rw [count_visibleRows, count_visibleRows, count_liveRows hinv, count_liveRows h, hlog, copies,
      hrows, copies]
    exact Nat.le_refl _
  have hentry : ∀ (e : ManifestEntry) (stored : List (TableKey × Row)),
      t.log = s.log ++ [e] → t.flushed = s.flushed ++ stored → t.content = s.content →
      (∀ key r, copies s.content key r (listed (s.log ++ [e])) ≤
        copies s.content key r (listed s.log) + stored.count (key, r)) →
      ∃ stored, t.flushed = s.flushed ++ stored ∧ ∀ key r, (visibleRows t key).count r ≤
        (visibleRows s key).count r + stored.count (key, r) := by
    intro e stored hlog hflushed hcontent hcopies
    refine ⟨stored, hflushed, fun key r => visible_entry hlog key r ?_⟩
    rw [count_liveRows hinv, count_liveRows h, hlog, hcontent]
    exact hcopies key r
  cases step_effect hs with
  | quiet harrives hun hlog hflushed htask hdeferred =>
      exact hsame (fun f _ => by rw [hun.content]) hlog hflushed
  | put i k T T' tag f rows hkeep htask hputs hset hlog hflushed hobjects hnew hcontent
      hdeferred =>
      have hunused := hsafe.1.unused h (hputs.putTag_eq htask)
      refine hsame ?_ hlog hflushed
      intro g hg
      rw [hcontent, Function.update_of_ne]
      exact fun heq => hunused (.inl ⟨g, mem_addedFiles hg, heq⟩)
  | commit i k T args removed stored o hkeep htask hcommits hset hun hlog hflushed hdeferred =>
      refine hentry _ stored hlog hflushed hun.content ?_
      exact fun key r => hcommits.copies_le h hsafe.2 htask key r _
  | tombstone i tombstone hact hkeep hun htask hlog hflushed hdeferred =>
      refine hentry _ [] hlog (by rw [hflushed, List.append_nil]) hun.content ?_
      intro key r
      refine (copies_entry s.content key r s.log _).trans ?_
      exact Nat.add_le_add (copies_subperm _ key r List.filter_sublist.subperm) (Nat.zero_le _)
  | stale i k groups files output hkeep htask hset hun hlog hflushed hdeferred =>
      exact hsame (fun f _ => by rw [hun.content]) hlog hflushed
  | delete i k p due hkeep htask hset hobjects hputs hcontent hlog hflushed hdeferred =>
      exact hsame (fun f _ => by rw [hcontent]) hlog hflushed

/-- The same for a run. -/
theorem visible_run [DecidableEq ι] {acts : List (Action ι)}
    (run : Run step rewritesSafely s acts t) (h : Inv s) :
    ∃ stored, t.flushed = s.flushed ++ stored ∧ ∀ key r,
      (visibleRows t key).count r ≤ (visibleRows s key).count r + stored.count (key, r) := by
  induction run with
  | nil s => exact ⟨[], (List.append_nil _).symm, fun key r => Nat.le_refl _⟩
  | cons hok hs _ ih =>
      obtain ⟨first, hfirst, hvisible⟩ := visible_step h hok hs
      obtain ⟨later, hlater, hrest⟩ := ih (h.step hok.1 hs)
      refine ⟨first ++ later, by rw [hlater, hfirst, List.append_assoc], ?_⟩
      intro key r
      have hone := hvisible key r
      have htwo := hrest key r
      rw [List.count_append]
      omega

end Step

section Runs

variable [DecidableEq ι] {s t : State ι} {acts acts' : List (Action ι)}

/-- In a run whose writes are fresh and whose rewrites replace files that are
still listed, a reader sees no row more often than it was stored, and from any
state on only stored rows come on top of what a reader saw there. A drop leaves
its table empty and a retention pass leaves none of its paths listed, so neither
comes back by anything but a new flush. -/
theorem rows_never_come_back (before : Run step rewritesSafely initial acts s)
    (after : Run step rewritesSafely s acts' t) :
    (∃ stored, t.flushed = s.flushed ++ stored ∧ ∀ key r,
      (visibleRows t key).count r ≤ t.flushed.count (key, r) ∧
      (visibleRows t key).count r ≤ (visibleRows s key).count r + stored.count (key, r)) ∧
    (∀ i k db table paths u, t.task i k = some (.drop db table paths) →
      step t (.dropCommit i k) = some u → visibleRows u (db, table) = []) ∧
    ∀ i k remove u, t.task i k = some (.retention remove) →
      step t (.retentionCommit i k) = some u → ∀ f ∈ listed u.log, f.path ∉ remove := by
  have hs : Inv s := Inv.run (fun _ _ h => h.1) before inv_initial
  refine ⟨?_, ?_, ?_⟩
  · obtain ⟨stored, hflushed, hvisible⟩ := visible_run after hs
    obtain ⟨all, hall, hcount⟩ := visible_run (before.append after) inv_initial
    refine ⟨stored, hflushed, fun key r => ⟨?_, hvisible key r⟩⟩
    have hnone : (visibleRows (initial : State ι) key).count r = 0 := rfl
    have hfrom := hcount key r
    rw [hnone, Nat.zero_add] at hfrom
    rw [hall]
    exact hfrom
  · intro i k db table paths u hT hu
    simp only [step, dropCommit, hT] at hu
    obtain rfl := Option.some.inj hu
    rw [visibleRows, liveRows_dropped (s := t) rfl
      ⟨⟨db, table⟩, by simp [CommitArgs.entry], rfl⟩]
    rfl
  · intro i k remove u hT hu f hf
    simp only [step, retentionCommit, hT] at hu
    obtain rfl := Option.some.inj hu
    rcases (mem_listed_snoc.mp hf).1 with ⟨_, hpath⟩ | hnew
    · exact hpath
    · cases hnew

end Runs

/-- Two rows in a first file, one in a second, and a delete that matches one row
of the first. -/
def storeAndDelete : List (Action (Party)) :=
  [.write .ingester ("d", "m") 100 untagged [], .write .ingester ("d", "m") 150 untagged [],
    .flushStart .ingester 0 fun _ => [], .flushPut .ingester 0 0, .flushCommit .ingester 0] ++
  storeRow .ingester 0 200 [] ++ [.tombstone .ingester ⟨"1", "d", "m", [], some 100, some 100, 0⟩]

/-- The tombstone pass up to the upload of what is left of the first file. -/
def rewriteFirst : List (Action (Party)) :=
  [.catchUp .compactor, .rewriteStart .compactor 0, .rewriteRead .compactor 0,
    .rewritePut .compactor 0 ⟨none, []⟩ 0]

theorem rewrite_then_merge : ∃ s t,
    Run step rewritesSafely initial storeAndDelete s ∧
    Run step rewritesSafely s (rewriteFirst ++ .rewriteCommit .compactor 0 :: mergeTwo .rival 0 ++
      [.compactCommit .rival 0 4]) t ∧
    ((listed t.log).length, (visibleRows t ("d", "m")).length) = (1, 2) ∧
    ∀ key r, (visibleRows t key).count r ≤ t.flushed.count (key, r) := by
  obtain ⟨s, before, hs⟩ := exists_run_of_checkedRun step (fun s a => unseen s a ∧ inputListed s a)
    (initial : State (Party)) storeAndDelete
    (fun s => (checkedRun step (fun s a => unseen s a ∧ inputListed s a) s
      (rewriteFirst ++ .rewriteCommit .compactor 0 :: mergeTwo .rival 0 ++
          [.compactCommit .rival 0 4])).map
      fun t => ((listed t.log).length, (visibleRows t ("d", "m")).length))
    (some (1, 2)) (by decide +kernel)
  obtain ⟨t, after, ht⟩ := exists_run_of_checkedRun _ _ s _ _ _ hs
  have hsafe : ∀ (s : State (Party)) a, unseen s a ∧ inputListed s a → rewritesSafely s a :=
    fun _ _ h => ⟨fresh_of_unseen h.1, h.2⟩
  refine ⟨s, t, before.mono hsafe, after.mono hsafe, ht, ?_⟩
  obtain ⟨⟨_, _, hrows⟩, _⟩ := rows_never_come_back (before.mono hsafe) (after.mono hsafe)
  exact fun key r => (hrows key r).1

/-- The merge of both files lands between the upload and the commit of the
rewrite, which then adds its output beside it. -/
theorem merge_then_rewrite_doubles : ∃ s,
    Run step (fun _ _ => True) (initial : State (Party))
      (storeAndDelete ++ rewriteFirst ++ mergeTwo .rival 0 ++
        [.compactCommit .rival 0 3, .rewriteCommit .compactor 0]) s ∧
      ((visibleRows s ("d", "m")).count ⟨150, untagged, [], 1⟩,
        s.flushed.count (("d", "m"), ⟨150, untagged, [], 1⟩)) = (2, 1) :=
  exists_run_of_checkedRun step (fun _ _ => True) _ _ _ _ (by decide +kernel)

end TimeLake.Cluster
