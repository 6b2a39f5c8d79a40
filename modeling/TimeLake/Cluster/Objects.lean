import TimeLake.Cluster.Invariant

/-!
Deletion and overwriting. `run_gc` deletes by path without a look at the
catalog and every output is a plain `put`, so both are safe exactly as far as
file names are never used again: the counter behind them starts at zero at
every boot of every node.
-/

namespace TimeLake.Cluster

open TimeLake.Library TimeLake.Catalog TimeLake.Rows TimeLake.Store

variable {ι : Type} [DecidableEq ι]

/-- The path a step of `run_gc` deletes. -/
def deletes (s : State ι) : Action ι → Option String
  | .gcDelete i k =>
      match s.task i k with
      | some (.gc (p :: _)) => some p
      | _ => none
  | _ => none

/-- In a run whose writes are fresh, `run_gc` deletes no object of a listed file,
and every listed file has its object. -/
theorem gc_spares_listed {acts : List (Action ι)} {s : State ι}
    (run : Run step fresh initial acts s) :
    (∀ a p, deletes s a = some p → ∀ f ∈ listed s.log, abs f.path ≠ abs p) ∧
      ∀ f ∈ listed s.log, s.objects (abs f.path) ≠ none := by
  have hinv : Inv s := Inv.run (fun _ _ h => h) run inv_initial
  constructor
  · intro a p hp f hf
    have hdeferred : Deferred s p := by
      cases a with
      | gcDelete i k =>
          simp only [deletes] at hp
          split at hp
          · next q due hT =>
              obtain rfl := Option.some.inj hp
              exact ⟨i, .inr ⟨k, _, hT, List.mem_cons_self⟩⟩
          · cases hp
      | _ => cases hp
    exact hinv.owned.deferred_listed p hdeferred f hf
  · intro f hf hnone
    have hstored := hinv.stored f (.inl hf)
    rw [objectOf, hnone] at hstored
    cases hstored

/-- No write of the run so far had the tag of this one: the simplest way to be
fresh. -/
def unseen (s : State ι) (a : Action ι) : Prop :=
  ∀ tag ∈ putTag s a, tag ∉ s.puts

instance (s : State ι) (a : Action ι) : Decidable (unseen s a) :=
  inferInstanceAs (Decidable (∀ tag ∈ putTag s a, _))

omit [DecidableEq ι] in
theorem fresh_of_unseen {s : State ι} {a : Action ι} (h : unseen s a) : fresh s a :=
  fun tag htag hin => absurd hin (h tag htag)

/-- The nodes of the runs below: one takes writes, two compact. -/
inductive Party where
  | ingester
  | compactor
  | rival
  deriving DecidableEq

def untagged : TagSet := ⟨[], .nil⟩

/-- Write a row, flush it from slot `k` and commit the file. -/
def storeRow (i : ι) (k : Nat) (time : Int) (fields : List (String × FieldValue)) :
    List (Action ι) :=
  [.write i ("d", "m") time untagged fields, .flushStart i k fun _ => [], .flushPut i k 0,
    .flushCommit i k]

/-- Merge the two files of the first hour, up to the upload. -/
def mergeTwo (i : ι) (k : Nat) : List (Action ι) :=
  [.catchUp i, .compactStart i k 2 [("d", "m", "1970010100")], .compactNext i k,
    .compactRead i k, .compactRead i k, .compactPut i k ⟨none, []⟩ 0]

/-- An ingester stores two files and one of two compactors, both at counter zero,
merges them and deletes the inputs. -/
def mergeAndCollect : List (Action (Party)) :=
  storeRow .ingester 0 100 [] ++ storeRow .ingester 0 200 [] ++ mergeTwo .compactor 0 ++
    [.compactCommit .compactor 0 2, .gcStart .compactor 1 fun _ => true]

theorem mergeAndCollect_spares : ∃ s, Run step fresh initial mergeAndCollect s ∧
    deletes s (.gcDelete .compactor 1) =
        some "d/m/data/1970010100/00000000000000000100-000000.parquet" ∧
    (listed s.log).length = 1 ∧
    ∀ f ∈ listed s.log, abs f.path ≠
      abs "d/m/data/1970010100/00000000000000000100-000000.parquet" := by
  obtain ⟨s, run, hs⟩ := exists_run_of_checkedRun step unseen (initial : State (Party))
    mergeAndCollect (fun s => (deletes s (.gcDelete .compactor 1), (listed s.log).length))
    (some "d/m/data/1970010100/00000000000000000100-000000.parquet", 1) (by decide +kernel)
  obtain ⟨hdeletes, hlength⟩ := Prod.mk.inj hs
  have hfresh := run.mono fun _ _ h => fresh_of_unseen h
  exact ⟨s, hfresh, hdeletes, hlength, (gc_spares_listed hfresh).1 _ _ hdeletes⟩

/-- Both compactors merge the two files at counter zero, so their outputs have
one path. The second commit is refused and puts that path in its queue. -/
def staleMerge : List (Action (Party)) :=
  storeRow .ingester 0 100 [] ++ storeRow .ingester 0 200 [] ++ mergeTwo .compactor 0 ++
    mergeTwo .rival 0 ++
    [.compactCommit .compactor 0 2, .compactCommit .rival 0 3, .gcStart .rival 1 fun _ => true]

/-- Then `run_gc` deletes the one object the catalog lists. -/
theorem staleMerge_deletes_listed : ∃ s,
    Run step (fun _ _ => True) (initial : State (Party)) staleMerge s ∧
      ∃ p, deletes s (.gcDelete .rival 1) = some p ∧ (listed s.log).map FileMeta.path = [p] := by
  obtain ⟨s, run, hs⟩ := exists_run_of_checkedRun step (fun _ _ => True)
    (initial : State (Party)) staleMerge
    (fun s => (deletes s (.gcDelete .rival 1), (listed s.log).map FileMeta.path))
    (some "d/m/data/1970010100/c00000000000000000200-000000.parquet",
      ["d/m/data/1970010100/c00000000000000000200-000000.parquet"]) (by decide +kernel)
  obtain ⟨hdeletes, hlisted⟩ := Prod.mk.inj hs
  exact ⟨s, run, _, hdeletes, hlisted⟩

/-- In a run whose writes are fresh no object is listed twice, in one table or in
two, no write goes to a path that a file of the log ever had, and the bytes of a
listed file stay what they are. -/
theorem objects_written_once {acts : List (Action ι)} {s : State ι}
    (run : Run step fresh initial acts s) :
    ((listed s.log).map objectOf).Nodup ∧
      ∀ a t, fresh s a → step s a = some t →
        (∀ tag, t.puts = tag :: s.puts → ∀ f ∈ addedFiles s.log, abs f.path ≠ tag.path) ∧
        ∀ f ∈ listed s.log, t.objects (abs f.path) = s.objects (abs f.path) := by
  have hinv : Inv s := Inv.run (fun _ _ h => h) run inv_initial
  refine ⟨hinv.owned.listed_nodup, ?_⟩
  intro a t hfresh hs
  have hsame : t.puts = s.puts → ∀ tag, t.puts = tag :: s.puts → ∀ f ∈ addedFiles s.log,
      abs f.path ≠ tag.path := by
    intro hputs tag htag
    exact absurd (hputs.symm.trans htag) (by simp)
  cases step_effect hs with
  | quiet harrives hun hlog hflushed htask hdeferred =>
      exact ⟨hsame hun.puts, fun f _ => by rw [hun.objects]⟩
  | put i k T T' tag f rows hkeep htask hputs hset hlog hflushed hobjects hnew hcontent
      hdeferred =>
      have hunused := hfresh.unused hinv (hputs.putTag_eq htask)
      have hadded : ∀ g ∈ addedFiles s.log, abs g.path ≠ tag.path :=
        fun g hg heq => hunused (.inl ⟨g, hg, heq⟩)
      refine ⟨?_, ?_⟩
      · intro tag' htag'
        rw [hnew] at htag'
        obtain rfl := (List.cons.inj htag').1
        exact hadded
      · intro g hg
        rw [hobjects, Function.update_of_ne (hadded g (mem_addedFiles hg))]
  | commit i k T args removed stored o hkeep htask hcommits hset hun hlog hflushed hdeferred =>
      exact ⟨hsame hun.puts, fun f _ => by rw [hun.objects]⟩
  | tombstone i tombstone hact hkeep hun htask hlog hflushed hdeferred =>
      exact ⟨hsame hun.puts, fun f _ => by rw [hun.objects]⟩
  | stale i k groups files output hkeep htask hset hun hlog hflushed hdeferred =>
      exact ⟨hsame hun.puts, fun f _ => by rw [hun.objects]⟩
  | delete i k p due hkeep htask hset hobjects hputs hcontent hlog hflushed hdeferred =>
      have hdue : Deferred s p := ⟨i, .inr ⟨k, _, htask, List.mem_cons_self⟩⟩
      refine ⟨hsame hputs, ?_⟩
      intro f hf
      have hne : abs f.path ≠ abs p := hinv.owned.deferred_listed p hdue f hf
      rw [hobjects, Function.update_of_ne hne]

/-- A node restarts between two flushes and counts from zero again; the second
file ends later, so it has a name of its own. -/
def twoBoots : List (Action Unit) :=
  storeRow () 0 100 [] ++ [.restart () []] ++ storeRow () 0 200 []

theorem twoBoots_written_once : ∃ s, Run step fresh initial twoBoots s ∧
    (listed s.log).map FileMeta.path =
      ["d/m/data/1970010100/00000000000000000100-000000.parquet",
        "d/m/data/1970010100/00000000000000000200-000000.parquet"] ∧
    ((listed s.log).map objectOf).Nodup := by
  obtain ⟨s, run, hs⟩ := exists_run_of_checkedRun step unseen (initial : State Unit) twoBoots
    (fun s => (listed s.log).map FileMeta.path)
    ["d/m/data/1970010100/00000000000000000100-000000.parquet",
      "d/m/data/1970010100/00000000000000000200-000000.parquet"] (by decide +kernel)
  have hfresh := run.mono fun _ _ h => fresh_of_unseen h
  exact ⟨s, hfresh, hs, (objects_written_once hfresh).1⟩

/-- A crash between the commit of a flush and the reclaim of its generation: the
row is replayed and flushed once more. -/
def replayedFlush : List (Action Unit) :=
  storeRow () 0 100 [] ++
    [.restart () [(("d", "m"), ⟨100, untagged, [], 0⟩)], .flushStart () 0 fun _ => [],
      .flushPut () 0 0, .flushCommit () 0]

/-- The second flush writes over the committed file, and the catalog then lists
it twice. -/
theorem replayedFlush_listed_twice : ∃ s,
    Run step (fun _ _ => True) (initial : State Unit) replayedFlush s ∧
      (listed s.log).map FileMeta.path =
        ["d/m/data/1970010100/00000000000000000100-000000.parquet",
          "d/m/data/1970010100/00000000000000000100-000000.parquet"] ∧
      ¬ ((listed s.log).map objectOf).Nodup := by
  obtain ⟨s, run, hs⟩ := exists_run_of_checkedRun step (fun _ _ => True)
    (initial : State Unit) replayedFlush (fun s => (listed s.log).map FileMeta.path)
    ["d/m/data/1970010100/00000000000000000100-000000.parquet",
      "d/m/data/1970010100/00000000000000000100-000000.parquet"] (by decide +kernel)
  refine ⟨s, run, hs, ?_⟩
  have hmap : (listed s.log).map objectOf = ((listed s.log).map FileMeta.path).map Store.abs := by
    simp [objectOf]
  rw [hmap, hs]
  simp

end TimeLake.Cluster
