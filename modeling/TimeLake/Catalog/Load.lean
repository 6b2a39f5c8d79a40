import TimeLake.Catalog.Replicas

/-!
`Catalog::load` folds the listing in the order of the keys, a replica folds in
the order of the sequence numbers. Twelve digits make the two orders agree for
the first `10 ^ 12 - 1` entries and no further: in every run that stays below
that, all replicas and every reload agree on one log, and one commit past it a
reload sees a removal before the addition it removes.
-/

namespace TimeLake.Catalog

open TimeLake.Library

section LoadOrder

variable {store : ManifestStore} {log : List ManifestEntry}

/-- The entries of a store in the order `Catalog::load` applies them. -/
def loadOrder (store : ManifestStore) : List ManifestEntry :=
  (ManifestStore.list store).filterMap store.lookup

theorem Holds.readEntry (h : Holds store log) (hn : Numbered log) {path : String}
    {e : ManifestEntry} (he : store.lookup path = some e) :
    readEntry store path = .ok e := by
  obtain ⟨k, hk, _⟩ := (h path e).mp he
  simp [Catalog.readEntry, he, (hn k e hk).2]

/-- On a store that holds a log, `load` never fails and folds `loadOrder`. -/
theorem load_eq_fold (h : Holds store log) (hn : Numbered log) :
    load store = .ok ⟨(loadOrder store).foldl (fun head e => max head e.seq) 0,
      (loadOrder store).foldl applyEntry .empty, 0⟩ := by
  have hread : ∀ paths : List String, (∀ path ∈ paths, (store.lookup path).isSome) →
      ∀ r : Replica,
        paths.foldlM (fun r path => do
            let entry ← Catalog.readEntry store path
            pure { r with seq := max r.seq entry.seq, index := applyEntry r.index entry }) r =
          (.ok ⟨(paths.filterMap store.lookup).foldl (fun head e => max head e.seq) r.seq,
            (paths.filterMap store.lookup).foldl applyEntry r.index, r.commitConflicts⟩ :
              Except IoError Replica) := by
    intro paths
    induction paths with
    | nil =>
        intro _ r
        rfl
    | cons path rest ih =>
        intro hall r
        obtain ⟨e, he⟩ := Option.isSome_iff_exists.mp (hall path (by simp))
        have hrest := ih (fun p hp => hall p (by simp [hp]))
          { r with seq := max r.seq e.seq, index := applyEntry r.index e }
        have hcons : (path :: rest).filterMap (fun p => store.lookup p) =
            e :: rest.filterMap fun p => store.lookup p := List.filterMap_cons_some he
        rw [List.foldlM_cons, h.readEntry hn he, hcons]
        exact hrest
  refine hread _ ?_ Replica.fresh
  intro path hpath
  rw [ManifestStore.list, List.mem_insertionSort] at hpath
  exact AList.lookup_isSome.mpr hpath

/-- The listing puts smaller keys first. -/
theorem Holds.loadOrder_pairwise (h : Holds store log) (hn : Numbered log) :
    (loadOrder store).Pairwise fun a b => manifestPath a.seq ≤ manifestPath b.seq := by
  have hsorted : (ManifestStore.list store).Pairwise (· ≤ ·) :=
    List.pairwise_insertionSort _ _
  refine List.Pairwise.filterMap _ ?_ hsorted
  intro p q hpq a ha b hb
  obtain ⟨j, hj, rfl⟩ := (h p a).mp ha
  obtain ⟨k, hk, rfl⟩ := (h q b).mp hb
  rw [(hn j a hj).1, (hn k b hk).1]
  exact hpq

theorem loadOrder_eq (h : Holds store log) (hn : Numbered log)
    (hfits : log.length < 10 ^ 12) : loadOrder store = log := by
  have hlog : log.Pairwise fun a b => manifestPath a.seq ≤ manifestPath b.seq := by
    rw [List.pairwise_iff_getElem]
    intro i j hi hj hij
    rw [(hn i _ (List.getElem?_eq_getElem hi)).1, (hn j _ (List.getElem?_eq_getElem hj)).1]
    exact (manifestPath_lt (by omega) (by omega)).le
  refine h.list_perm.eq_of_pairwise ?_ (h.loadOrder_pairwise hn) hlog
  intro a b ha hb hab hba
  have hpath := manifestPath_injective (le_antisymm hab hba)
  exact hn.injective (h.list_perm.subset ha) hb hpath

private theorem Numbered.foldl_max (hn : Numbered log) :
    log.foldl (fun head e => max head e.seq) 0 = log.length := by
  induction log using List.reverseRecOn with
  | nil => rfl
  | append_singleton rest e ih =>
      have hseq := (hn rest.length e (by simp)).1
      have hrest := ih (hn.of_append _)
      simp only [List.foldl_append, hrest, List.foldl_cons, List.foldl_nil, hseq,
        List.length_append, List.length_singleton]
      omega

theorem load_eq (h : Holds store log) (hn : Numbered log) (hfits : log.length < 10 ^ 12) :
    load store = .ok ⟨log.length, indexOf log, 0⟩ := by
  rw [load_eq_fold h hn, loadOrder_eq h hn hfits, hn.foldl_max]
  rfl

end LoadOrder

/-- The manifest objects of a log and nothing else. -/
def storeOf (log : List ManifestEntry) : ManifestStore :=
  log.zipIdx.foldl (fun store p => store.insert (manifestPath (p.2 + 1)) p.1) ∅

theorem holds_storeOf (log : List ManifestEntry) : Holds (storeOf log) log := by
  induction log using List.reverseRecOn with
  | nil =>
      intro path e
      simp [storeOf]
  | append_singleton rest e ih =>
      have hsnoc : storeOf (rest ++ [e]) =
          (storeOf rest).insert (manifestPath (rest.length + 1)) e := by
        simp [storeOf, List.zipIdx_append]
      rw [hsnoc]
      exact ih.snoc e

theorem Holds.unique {store : ManifestStore} {log log' : List ManifestEntry}
    (h : Holds store log) (h' : Holds store log') : log = log' := by
  apply List.ext_getElem?
  have hsub : ∀ {l l' : List ManifestEntry}, Holds store l → Holds store l' →
      ∀ (k : Nat) e, l[k]? = some e → l'[k]? = some e := by
    intro l l' hl hl' k e hk
    obtain ⟨j, hj, hpath⟩ := (hl' _ _).mp (hl.lookup hk)
    obtain rfl : k = j := by
      have := manifestPath_injective hpath
      omega
    exact hj
  intro k
  apply Option.ext
  intro e
  exact ⟨hsub h h' k e, hsub h' h k e⟩

variable {ι : Type}

/-- The store is one log under the keys `1 .. n`, and every instance holds the
fold of the prefix up to its own head, which is what a reload of that prefix
would hold. -/
structure Coherent (s : Cluster ι) (log : List ManifestEntry) : Prop where
  holds : Holds s.store log
  numbered : ∀ (k : Nat) e, log[k]? = some e → e.seq = k + 1
  head_le : ∀ i, (s.node i).replica.seq ≤ log.length
  folded : ∀ i, (s.node i).replica.index = indexOf (log.take (s.node i).replica.seq)
  reload : ∀ i, ∃ conflicts, load (storeOf (log.take (s.node i).replica.seq)) =
    .ok ⟨(s.node i).replica.seq, (s.node i).replica.index, conflicts⟩

/-- A put only claims a sequence number that twelve digits can write. -/
def SeqFits (s : Cluster ι) : Action ι → Prop
  | .resume i => ∀ seq ∈ (s.node i).claims, seq < 10 ^ 12
  | _ => True

instance (s : Cluster ι) (a : Action ι) : Decidable (SeqFits s a) :=
  match a with
  | .resume i => inferInstanceAs (Decidable (∀ seq ∈ (s.node i).claims, seq < 10 ^ 12))
  | .start _ _ => inferInstanceAs (Decidable True)
  | .fail _ => inferInstanceAs (Decidable True)

/-- The invariant of a run that stays below `10 ^ 12`: no instance can have a
head past the log, so the bound on the log bounds every prefix. -/
theorem Inv.coherent {s : Cluster ι} {log : List ManifestEntry} (h : Inv s log)
    (hfits : log.length < 10 ^ 12) : Coherent s log where
  holds := h.holds
  numbered := fun k e hk => (h.numbered k e hk).1
  head_le := fun i => (h.nodes i).head_le
  folded := fun i => (h.nodes i).folded
  reload := by
    intro i
    have hle := (h.nodes i).head_le
    have hlen : (log.take (s.node i).replica.seq).length = (s.node i).replica.seq :=
      List.length_take_of_le hle
    have hn : Numbered (log.take (s.node i).replica.seq) := by
      apply Numbered.of_append (log.drop (s.node i).replica.seq)
      rw [List.take_append_drop]
      exact h.numbered
    refine ⟨0, ?_⟩
    rw [load_eq (holds_storeOf _) hn (by omega), hlen, (h.nodes i).folded]

theorem inv_step_fits [DecidableEq ι] {s t : Cluster ι} {a : Action ι} {log : List ManifestEntry}
    (h : Inv s log) (hfits : log.length < 10 ^ 12) (hok : SeqFits s a)
    (hs : step s a = some t) : ∃ log', Inv t log' ∧ log'.length < 10 ^ 12 := by
  obtain ⟨i, log', hinv, heff, _⟩ := step_effect h hs
  refine ⟨log', hinv, ?_⟩
  cases heff with
  | started | progressed | returned => exact hfits
  | committed op args hact hop hclaims =>
      subst hact
      have := hok _ hclaims
      simpa using this

/-- Whatever the instances do and however their store calls interleave, as long
as no put claims a sequence number of more than twelve digits the store is one
log without gaps and every replica, and every reload, is a prefix of it. -/
theorem replicas_coherent [DecidableEq ι] {acts : List (Action ι)} {s : Cluster ι}
    (run : Run step SeqFits initial acts s) : ∃ log, Coherent s log := by
  have hinv : ∃ log, Inv s log ∧ log.length < 10 ^ 12 := by
    refine run.invariant (P := fun s => ∃ log, Inv s log ∧ log.length < 10 ^ 12) ?_
        ⟨[], inv_initial, by simp⟩
    rintro s a t ⟨log, h, hfits⟩ hok hs
    exact inv_step_fits h hfits hok hs
  obtain ⟨log, h, hfits⟩ := hinv
  exact ⟨log, h.coherent hfits⟩

/-- Two instances race for the first sequence number; the loser reads the
winner's entry and lands behind it. -/
private def race : List (Action Bool) :=
  [.start false (.commit [] ["old"]), .start true (.commitDrop "db" "cpu"), .resume false,
    .resume true, .resume true, .resume true, .resume true, .resume true]

theorem race_coherent : ∃ s : Cluster Bool, Run step SeqFits initial race s ∧
    (s.writer, (s.node true).replica.commitConflicts) = ([0, 1], 1) ∧
    ∃ log, Coherent s log := by
  obtain ⟨s, run, hseen⟩ := exists_run_of_checkedRun step SeqFits (initial : Cluster Bool) race
    (fun s => (s.writer, (s.node true).replica.commitConflicts)) ([0, 1], 1)
    (by decide +kernel)
  exact ⟨s, run, hseen, replicas_coherent run⟩

section PastTwelveDigits

/-- The entries a list of commits writes from sequence number `n + 1` on. -/
def entriesFrom (n : Nat) : List CommitArgs → List ManifestEntry
  | [] => []
  | args :: rest => args.entry (n + 1) :: entriesFrom (n + 1) rest

private theorem entriesFrom_append (n : Nat) (xs ys : List CommitArgs) :
    entriesFrom n (xs ++ ys) = entriesFrom n xs ++ entriesFrom (n + xs.length) ys := by
  induction xs generalizing n with
  | nil => rfl
  | cons x xs ih =>
      simp only [List.cons_append, entriesFrom, ih, List.length_cons]
      rw [Nat.add_right_comm, Nat.add_assoc n]

private theorem attempt_of_free [DecidableEq ι] {s : Cluster ι} {i : ι} {r : Replica} {op : Op}
    {args : CommitArgs} {lost : Nat} (hfence : args.missing r.index.files = none)
    (hfree : s.store.lookup (manifestPath (r.seq + 1)) = none) :
    s.attempt i r op args lost =
      { s.finish i { r with seq := r.seq + 1,
                            index := applyEntry r.index (args.entry (r.seq + 1)) }
            op (.ok (r.seq + 1)) with
          store := s.store.insert (manifestPath (r.seq + 1)) (args.entry (r.seq + 1))
          writer := s.writer ++ [op.id] } := by
  simp only [Cluster.attempt, hfence, hfree]

/-- `Catalog::commit` of an instance at the head of the log, both its steps. -/
theorem commit_run [DecidableEq ι] {s : Cluster ι} {log : List ManifestEntry} {i : ι}
    (h : Inv s log) (hidle : (s.node i).pending = none)
    (hhead : (s.node i).replica.seq = log.length) (add : List FileMeta) (remove : List String) :
    ∃ t, Run step (fun _ _ => True) s [.start i (.commit add remove), .resume i] t ∧
      Inv t (log ++ [CommitArgs.entry ⟨add, remove, [], [], [], false⟩ (log.length + 1)]) ∧
      (t.node i).pending = none ∧ (t.node i).replica.seq = log.length + 1 := by
  let args : CommitArgs := ⟨add, remove, [], [], [], false⟩
  let op : Op := ⟨s.nextId, .commit add remove, .put args 0⟩
  let started : Cluster ι :=
    { s.set i ⟨(s.node i).replica, some op⟩ with nextId := s.nextId + 1 }
  have hstart : step s (.start i (.commit add remove)) = some started := by
    simp only [step, hidle]
    rfl
  have hnode := h.nodes i
  have hself : started.node i = ⟨(s.node i).replica, some op⟩ := set_node_self _
  have hinv : Inv started log := by
    obtain ⟨j, log', hinv, heff, _⟩ := step_effect h hstart
    cases heff with
    | started => exact hinv
    | progressed => exact hinv
    | returned => exact hinv
    | committed op args hact => cases hact
  have hfree : started.store.lookup (manifestPath (log.length + 1)) = none :=
    h.holds.lookup_eq_none
  have hcommit := hinv.commit (i := i) op args
    (r := (s.node i).replica) (.idle hnode.head_le hnode.folded) hhead
  refine ⟨_, .cons trivial hstart (.cons trivial ?_ (.nil _)), hcommit, ?_, ?_⟩
  · have hput : started.advance i op = started.attempt i (s.node i).replica op args 0 := by
      simp only [Cluster.advance, hself, op]
    simp only [step, hself, Option.map_some, hput]
    rw [attempt_of_free rfl (by rw [hhead]; exact hfree)]
  · simp [Cluster.finish]
  · simp [Cluster.finish, hhead]

/-- An instance at the head of the log commits a list of changes one by one. -/
theorem commits_run [DecidableEq ι] (i : ι) (changes : List (List FileMeta × List String))
    {s : Cluster ι} {log : List ManifestEntry} (h : Inv s log)
    (hidle : (s.node i).pending = none) (hhead : (s.node i).replica.seq = log.length) :
    ∃ acts t, Run step (fun _ _ => True) s acts t ∧
      Inv t (log ++ entriesFrom log.length
        (changes.map fun c => CommitArgs.mk c.1 c.2 [] [] [] false)) ∧
      (t.node i).replica.seq = log.length + changes.length := by
  induction changes generalizing s log with
  | nil => exact ⟨[], s, .nil s, by simpa [entriesFrom] using h, by simpa using hhead⟩
  | cons c rest ih =>
      obtain ⟨t, run, hinv, hidle', hhead'⟩ := commit_run h hidle hhead c.1 c.2
      obtain ⟨acts, u, run', hinv', hlast⟩ := ih hinv hidle' (by simpa using hhead')
      refine ⟨_, u, run.append run', ?_, ?_⟩
      · simpa [entriesFrom] using hinv'
      · simpa [Nat.add_assoc, Nat.add_comm 1] using hlast

def ManifestEntry.Changes (e : ManifestEntry) : Bool :=
  !(e.addFiles.isEmpty && e.removePaths.isEmpty && e.tombstones.isEmpty &&
    e.schemaDecls.isEmpty && e.dropTables.isEmpty)

theorem applyEntry_of_not_changes (c : Index) {e : ManifestEntry} (h : e.Changes = false) :
    applyEntry c e = c := by
  simp only [ManifestEntry.Changes, Bool.not_eq_false', Bool.and_eq_true,
    List.isEmpty_iff] at h
  obtain ⟨⟨⟨⟨hadd, hremove⟩, htomb⟩, hschema⟩, hdrop⟩ := h
  simp [applyEntry, hadd, hremove, htomb, hschema, hdrop]

theorem foldl_applyEntry_filter (c : Index) (es : List ManifestEntry) :
    es.foldl applyEntry c = (es.filter ManifestEntry.Changes).foldl applyEntry c := by
  induction es generalizing c with
  | nil => rfl
  | cons e rest ih =>
      cases he : e.Changes with
      | true => simp [he, ih]
      | false => simp [he, ih, applyEntry_of_not_changes c he]

private theorem filter_entriesFrom_replicate (n m : Nat) :
    (entriesFrom m (List.replicate n ⟨[], [], [], [], [], false⟩)).filter
      ManifestEntry.Changes = [] := by
  induction n generalizing m with
  | zero => rfl
  | succ n ih =>
      rw [List.replicate_succ, entriesFrom, List.filter_cons_of_neg Bool.false_ne_true]
      exact ih (m + 1)

private theorem length_entriesFrom (n : Nat) (xs : List CommitArgs) :
    (entriesFrom n xs).length = xs.length := by
  induction xs generalizing n with
  | nil => rfl
  | cons x xs ih => simp [entriesFrom, ih]

private def lateFile : FileMeta :=
  ⟨"db", "cpu", "1970-01-01T00", "db/cpu/data/1970-01-01T00/f.parquet", 1, 1, 0, 0⟩

private def lateAdd (seq : Nat) : ManifestEntry :=
  CommitArgs.entry ⟨[lateFile], [], [], [], [], false⟩ seq

private def lateRemove (seq : Nat) : ManifestEntry :=
  CommitArgs.entry ⟨[], [lateFile.path], [], [], [], false⟩ seq

/-- `n` empty commits, one that adds a file and one that removes it. -/
private def lateLog (n : Nat) : List ManifestEntry :=
  entriesFrom 0 (List.replicate n ⟨[], [], [], [], [], false⟩) ++
    [lateAdd (n + 1), lateRemove (n + 2)]

private theorem filter_lateLog (n : Nat) :
    (lateLog n).filter ManifestEntry.Changes = [lateAdd (n + 1), lateRemove (n + 2)] := by
  rw [lateLog, List.filter_append, filter_entriesFrom_replicate]
  rfl

private theorem eq_or_swap_of_perm {α : Type} {l : List α} {a b : α} (h : l.Perm [a, b]) :
    l = [a, b] ∨ l = [b, a] := by
  obtain ⟨x, y, rfl⟩ := List.length_eq_two.mp h.length_eq
  rcases List.mem_pair.mp (h.subset List.mem_cons_self) with rfl | rfl
  · exact .inl (by rw [List.singleton_perm_singleton.mp (h.cons_inv)])
  · have hswap := h.trans (List.Perm.swap _ _ _)
    exact .inr (by rw [List.singleton_perm_singleton.mp (hswap.cons_inv)])

/-- When the key of the removal is listed before the key of the addition, a
reload keeps the file that the log has removed. -/
private theorem reload_ne (n : Nat) (hn : Numbered (lateLog n))
    (hkeys : ¬ manifestPath (n + 1) ≤ manifestPath (n + 2)) (seq conflicts : Nat) :
    load (storeOf (lateLog n)) ≠ .ok ⟨seq, indexOf (lateLog n), conflicts⟩ := by
  have hholds := holds_storeOf (lateLog n)
  have hperm : ((loadOrder (storeOf (lateLog n))).filter ManifestEntry.Changes).Perm
      [lateAdd (n + 1), lateRemove (n + 2)] :=
    filter_lateLog n ▸ hholds.list_perm.filter ManifestEntry.Changes
  have hpair := (hholds.loadOrder_pairwise hn).filter ManifestEntry.Changes
  have horder : (loadOrder (storeOf (lateLog n))).filter ManifestEntry.Changes =
      [lateRemove (n + 2), lateAdd (n + 1)] := by
    rcases eq_or_swap_of_perm hperm with heq | heq
    · rw [heq] at hpair
      have hle := (List.pairwise_cons.mp hpair).1 _ (List.mem_singleton.mpr rfl)
      exact absurd hle hkeys
    · exact heq
  have hreload : ((loadOrder (storeOf (lateLog n))).foldl applyEntry .empty).files.allFiles =
      [lateFile] := by
    rw [foldl_applyEntry_filter, horder]
    rfl
  have hlog : (indexOf (lateLog n)).files.allFiles = [] := by
    rw [indexOf, foldl_applyEntry_filter, filter_lateLog]
    rfl
  intro h
  rw [load_eq_fold hholds hn] at h
  have hindex := congrArg Replica.index (Except.ok.inj h)
  dsimp only at hindex
  rw [hindex, hlog] at hreload
  cases hreload

private theorem late_run (n : Nat) : ∃ acts s,
    Run step (fun _ _ => True) (initial : Cluster Unit) acts s ∧ Inv s (lateLog n) ∧
      (s.node ()).replica.seq = n + 2 := by
  obtain ⟨acts, s, run, hinv, hhead⟩ := commits_run ()
    (List.replicate n ([], []) ++ [([lateFile], []), ([], [lateFile.path])])
    inv_initial rfl rfl
  rw [List.map_append, List.map_replicate, entriesFrom_append] at hinv
  refine ⟨acts, s, run, ?_, by simpa using hhead⟩
  simpa [lateLog, lateAdd, lateRemove, entriesFrom] using hinv

private theorem late_incoherent (n : Nat)
    (hkeys : ¬ manifestPath (n + 1) ≤ manifestPath (n + 2)) :
    ¬ ∀ (acts : List (Action Unit)) (s : Cluster Unit),
      Run step (fun _ _ => True) initial acts s → ∃ log, Coherent s log := by
  intro hall
  obtain ⟨acts, s, run, hinv, hhead⟩ := late_run n
  obtain ⟨log, hcoh⟩ := hall acts s run
  obtain rfl := hinv.holds.unique hcoh.holds
  have hlen : (lateLog n).length = n + 2 := by
    simp [lateLog, length_entriesFrom]
  have htake : (lateLog n).take (s.node ()).replica.seq = lateLog n :=
    List.take_of_length_le (by omega)
  obtain ⟨conflicts, hreload⟩ := hcoh.reload ()
  rw [hcoh.folded, htake] at hreload
  exact reload_ne n hinv.numbered hkeys _ _ hreload

/-- A single instance that commits `10 ^ 12` times: its last two commits add a
file and remove it again, and a reload of the same store lists the file. -/
theorem reload_diverges_at_thirteen_digits :
    ¬ ∀ (acts : List (Action Unit)) (s : Cluster Unit),
      Run step (fun _ _ => True) initial acts s → ∃ log, Coherent s log := by
  apply late_incoherent 999999999998
  decide

end PastTwelveDigits

end TimeLake.Catalog
