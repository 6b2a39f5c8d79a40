import TimeLake.Catalog.Fence

/-!
Commits over a store whose conditional put may create the object and report
something else: the response to the first request is lost, and the client of
the store either gives up or repeats the request and meets its own object.
`commit_guarded` takes a refused slot for another writer's. It then reads its
own entry like any other and proposes the same payload again, or, with the
fence, finds its own removals and calls the merge stale.
-/

namespace TimeLake.Catalog

open TimeLake.Library

variable {ι : Type} [DecidableEq ι]

/-- The actions of `Commit`, and a put that creates its object unheard: `taken`
says whether the caller is told that the key was taken, or gets an error. -/
inductive AmbiguousAct (ι : Type) where
  | plain (a : Action ι)
  | unheard (i : ι) (taken : Bool)

/-- The store takes the entry, the caller learns nothing of it. -/
def Cluster.unheard (s : Cluster ι) (i : ι) (r : Replica) (op : Op) (args : CommitArgs)
    (lost : Nat) (taken : Bool) : Option (Cluster ι) :=
  match args.missing r.index.files, s.store.lookup (manifestPath (r.seq + 1)) with
  | none, none =>
      let created := { s with
        store := s.store.insert (manifestPath (r.seq + 1)) (args.entry (r.seq + 1))
        writer := s.writer ++ [op.id] }
      if taken then
        some (created.set i ⟨{ r with commitConflicts := r.commitConflicts + 1 },
          some { op with stage := .list (some (args, lost + 1)) }⟩)
      else some (created.finish i r op (.error .other))
  | _, _ => none

def ambiguousStep (s : Cluster ι) : AmbiguousAct ι → Option (Cluster ι)
  | .plain a => step s a
  | .unheard i taken =>
      (s.node i).pending.bind fun op =>
        match op.stage with
        | .put args lost => s.unheard i (s.node i).replica op args lost taken
        | _ => none

/-- A put that created its object does not report the key as taken. -/
def ambiguousOk (_ : Cluster ι) : AmbiguousAct ι → Prop
  | .plain _ => True
  | .unheard _ taken => taken = false

instance (s : Cluster ι) : (a : AmbiguousAct ι) → Decidable (ambiguousOk s a)
  | .plain _ => inferInstanceAs (Decidable True)
  | .unheard _ taken => inferInstanceAs (Decidable (taken = false))

/-- Each entry of the log was written by one call, and holds its payload. A call
that returned `Ok` wrote the entry it names, one that was called stale wrote
none. -/
structure OnceInv (s : Cluster ι) (log : List ManifestEntry) : Prop where
  ids : IdInv s
  length : s.writer.length = log.length
  nodup : s.writer.Nodup
  payload : ∀ r ∈ s.returned, ∀ k, s.writer[k]? = some r.id →
    ∃ args, r.call.args = some args ∧ log[k]? = some (args.entry (k + 1))
  landed : ∀ r ∈ s.returned, r.call.args ≠ none → ∀ seq, r.result = .ok seq →
    ∃ k, seq = k + 1 ∧ s.writer[k]? = some r.id
  stale : ∀ r ∈ s.returned, ∀ path, r.result = .error (.alreadyExists path) → r.id ∉ s.writer

section Once

variable {s t : Cluster ι} {log : List ManifestEntry} {i : ι}

omit [DecidableEq ι] in
theorem OnceInv.same (h : OnceInv s log) (hids : IdInv t) (hwriter : t.writer = s.writer)
    (hreturned : t.returned = s.returned) : OnceInv t log := by
  refine ⟨hids, ?_, ?_, ?_, ?_, ?_⟩
  · rw [hwriter]
    exact h.length
  · rw [hwriter]
    exact h.nodup
  · rw [hwriter, hreturned]
    exact h.payload
  · rw [hwriter, hreturned]
    exact h.landed
  · rw [hwriter, hreturned]
    exact h.stale

omit [DecidableEq ι] in
/-- A call returns and has written nothing. -/
theorem OnceInv.finish {op : Op} {result : Except IoError Nat} (h : OnceInv s log)
    (hids : IdInv t) (hop : (s.node i).pending = some op) (hwriter : t.writer = s.writer)
    (hreturned : t.returned = s.returned ++ [⟨op.id, op.call, result⟩])
    (hresult : ∀ seq, result = .ok seq → op.call.args = none) : OnceInv t log := by
  have hunwritten := h.ids.pending_unwritten i op hop
  refine ⟨hids, ?_, ?_, ?_, ?_, ?_⟩
  · rw [hwriter]
    exact h.length
  · rw [hwriter]
    exact h.nodup
  · intro r hr k hk
    rw [hwriter] at hk
    rw [hreturned, List.mem_append, List.mem_singleton] at hr
    rcases hr with hr | rfl
    · exact h.payload r hr k hk
    · exact absurd (List.mem_of_getElem? hk) hunwritten
  · intro r hr hcommit seq hok
    rw [hwriter]
    rw [hreturned, List.mem_append, List.mem_singleton] at hr
    rcases hr with hr | rfl
    · exact h.landed r hr hcommit seq hok
    · exact absurd (hresult seq hok) hcommit
  · intro r hr path herror
    rw [hwriter]
    rw [hreturned, List.mem_append, List.mem_singleton] at hr
    rcases hr with hr | rfl
    · exact h.stale r hr path herror
    · exact hunwritten

omit [DecidableEq ι] in
/-- A call writes its entry and returns in the same step. -/
theorem OnceInv.write {op : Op} {args : CommitArgs} {result : Except IoError Nat}
    (h : OnceInv s log) (hids : IdInv t) (hop : (s.node i).pending = some op)
    (hargs : op.call.args = some args) (hwriter : t.writer = s.writer ++ [op.id])
    (hreturned : t.returned = s.returned ++ [⟨op.id, op.call, result⟩])
    (hresult : result = .ok (log.length + 1) ∨ result = .error .other) :
    OnceInv t (log ++ [args.entry (log.length + 1)]) := by
  have hunwritten := h.ids.pending_unwritten i op hop
  have hlast : t.writer[log.length]? = some op.id := by
    rw [hwriter, ← h.length, List.getElem?_concat_length]
  have hcases : ∀ k id, t.writer[k]? = some id →
      s.writer[k]? = some id ∧ k < log.length ∨ k = log.length ∧ id = op.id := by
    intro k id hk
    rw [hwriter] at hk
    rcases Nat.lt_trichotomy k s.writer.length with hlt | heq | hgt
    · rw [List.getElem?_append_left hlt] at hk
      exact .inl ⟨hk, h.length ▸ hlt⟩
    · rw [heq, List.getElem?_concat_length] at hk
      exact .inr ⟨heq.trans h.length, (Option.some.inj hk).symm⟩
    · rw [List.getElem?_eq_none (by simp; omega)] at hk
      cases hk
  have hne : ∀ r ∈ s.returned, r.id ≠ op.id := fun r hr => h.ids.returned_ne r hr i op hop
  refine ⟨hids, ?_, ?_, ?_, ?_, ?_⟩
  · rw [hwriter, List.length_append, List.length_append, h.length]
    rfl
  · rw [hwriter]
    refine List.nodup_append'.mpr ⟨h.nodup, List.nodup_singleton _, ?_⟩
    rw [List.disjoint_singleton]
    exact hunwritten
  · intro r hr k hk
    rw [hreturned, List.mem_append, List.mem_singleton] at hr
    rcases hr with hr | rfl
    · rcases hcases k r.id hk with ⟨hold, hlt⟩ | ⟨_, hid⟩
      · obtain ⟨args', hargs', hentry⟩ := h.payload r hr k hold
        exact ⟨args', hargs', by rw [List.getElem?_append_left hlt]; exact hentry⟩
      · exact absurd hid (hne r hr)
    · rcases hcases k op.id hk with ⟨hold, _⟩ | ⟨rfl, _⟩
      · exact absurd (List.mem_of_getElem? hold) hunwritten
      · exact ⟨args, hargs, by rw [List.getElem?_concat_length]⟩
  · intro r hr hcommit seq hok
    rw [hreturned, List.mem_append, List.mem_singleton] at hr
    rcases hr with hr | rfl
    · obtain ⟨k, hseq, hk⟩ := h.landed r hr hcommit seq hok
      refine ⟨k, hseq, ?_⟩
      rw [hwriter, List.getElem?_append_left (List.getElem?_eq_some_iff.mp hk).1]
      exact hk
    · rcases hresult with hwritten | hfailed
      · obtain rfl := Except.ok.inj (hok.symm.trans hwritten)
        exact ⟨log.length, rfl, hlast⟩
      · cases hok.symm.trans hfailed
  · intro r hr path herror hin
    rw [hwriter, List.mem_append, List.mem_singleton] at hin
    rw [hreturned, List.mem_append, List.mem_singleton] at hr
    rcases hr with hr | rfl
    · rcases hin with hin | hid
      · exact h.stale r hr path herror hin
      · exact hne r hr hid
    · rcases hresult with hwritten | hfailed
      · cases herror.symm.trans hwritten
      · cases herror.symm.trans hfailed

omit [DecidableEq ι] in
theorem OnceInv.step {a : Action ι} {log' : List ManifestEntry} (h : OnceInv s log)
    (heff : Effect s a t log i log') (hothers : ∀ k, k ≠ i → t.node k = s.node k) :
    OnceInv t log' := by
  cases heff with
  | started call _ _ hpending hnext hwriter hreturned =>
      exact h.same (h.ids.start hothers hpending hnext hwriter hreturned) hwriter hreturned
  | progressed op stage hop hpending hnext hwriter hreturned =>
      have hkeep := noNewCall_of_stage hothers hop hpending
      exact h.same (h.ids.frame hkeep hnext hwriter hreturned) hwriter hreturned
  | returned op result hop hpending hnext hwriter hreturned hresult =>
      have hids := h.ids.finish hothers hop hpending hnext hreturned (.inl hwriter)
      exact h.finish hids hop hwriter hreturned hresult
  | committed op args _ hop _ hargs _ hpending hnext hwriter hreturned =>
      have hids := h.ids.finish hothers hop hpending hnext hreturned (.inr hwriter)
      exact h.write hids hop hargs hwriter hreturned (.inl rfl)

/-- A put whose error the caller hears leaves the entry in the log and the
caller's replica behind it. -/
theorem unheard_error (h : Inv s log) (honce : OnceInv s log) {op : Op} {args : CommitArgs}
    {lost : Nat} (hop : (s.node i).pending = some op) (hstage : op.stage = .put args lost)
    (ht : s.unheard i (s.node i).replica op args lost false = some t) :
    Inv t (log ++ [args.entry (log.length + 1)]) ∧
      OnceInv t (log ++ [args.entry (log.length + 1)]) := by
  have hnode := h.nodes i
  have hargs : op.call.args = some args := by
    have := hnode.staged op hop
    simpa [Op.MatchesCall, hstage] using this
  unfold Cluster.unheard at ht
  split at ht
  · next hfree =>
      have hcurrent := (h.holds.free_iff hnode.head_le).mp hfree
      simp only [Bool.false_eq_true, if_false] at ht
      obtain rfl := Option.some.inj ht
      have hothers : ∀ k, k ≠ i → (Cluster.finish { s with
          store := s.store.insert (manifestPath ((s.node i).replica.seq + 1))
            (args.entry ((s.node i).replica.seq + 1))
          writer := s.writer ++ [op.id] } i (s.node i).replica op (.error .other)).node k =
            s.node k := fun k hk => finish_node_ne _ _ _ hk
      refine ⟨⟨?_, h.numbered.snoc rfl rfl, ?_⟩, ?_⟩
      · simp only [Cluster.finish, Cluster.set, hcurrent]
        exact h.holds.snoc _
      · intro j
        simp only [Cluster.finish, Cluster.set, hcurrent]
        by_cases hj : j = i
        · subst hj
          rw [Function.update_self]
          refine NodeInv.idle ?_ ?_
          · simp [hcurrent]
          · rw [List.take_append_of_le_length hnode.head_le]
            exact hnode.folded
        · rw [Function.update_of_ne hj]
          exact (h.nodes j).snoc h.holds _
      · have hids := honce.ids.finish hothers hop (by simp [Cluster.finish]) rfl rfl (.inr rfl)
        exact honce.write hids hop hargs rfl rfl (.inr rfl)
  · cases ht

theorem once_step {a : AmbiguousAct ι} (h : ∃ log, Inv s log ∧ OnceInv s log)
    (hok : ambiguousOk s a) (hstep : ambiguousStep s a = some t) :
    ∃ log, Inv t log ∧ OnceInv t log := by
  obtain ⟨log, hinv, honce⟩ := h
  cases a with
  | plain a =>
      obtain ⟨j, log', hinv', heff, hothers⟩ := step_effect hinv hstep
      exact ⟨log', hinv', honce.step heff hothers⟩
  | unheard i taken =>
      obtain rfl : taken = false := hok
      simp only [ambiguousStep, Option.bind_eq_some_iff] at hstep
      obtain ⟨op, hop, hput⟩ := hstep
      split at hput
      · next args lost hstage => exact ⟨_, unheard_error hinv honce hop hstage hput⟩
      · cases hput

omit [DecidableEq ι] in
theorem once_initial :
    ∃ log, Inv (initial : Cluster ι) log ∧ OnceInv (initial : Cluster ι) log := by
  refine ⟨[], inv_initial, ⟨?_, ?_, ?_, ?_, ?_, ?_⟩, ?_, ?_, ?_, ?_, ?_⟩ <;> simp [initial]

end Once

section Exactly

/-- Every commit call is in the log at most once, at the number it returned if
it returned `Ok`, and not at all if it was called stale, as long as no put that
created its object reports the key as taken. Puts may create it and report an
error. -/
theorem commit_exactly_once {acts : List (AmbiguousAct ι)} {s : Cluster ι}
    (run : Run ambiguousStep ambiguousOk initial acts s) :
    ∃ log, Holds s.store log ∧ s.writer.length = log.length ∧ s.writer.Nodup ∧
      ∀ r ∈ s.returned, ∀ args, r.call.args = some args →
        (∀ k, s.writer[k]? = some r.id → log[k]? = some (args.entry (k + 1))) ∧
        (∀ seq, r.result = .ok seq → ∃ k, seq = k + 1 ∧ s.writer[k]? = some r.id) ∧
        ∀ path, r.result = .error (.alreadyExists path) → r.id ∉ s.writer := by
  obtain ⟨log, hinv, honce⟩ := run.invariant (P := fun s => ∃ log, Inv s log ∧ OnceInv s log)
    (fun _ _ _ h hok hstep => once_step h hok hstep) once_initial
  refine ⟨log, hinv.holds, honce.length, honce.nodup, ?_⟩
  intro r hr args hargs
  refine ⟨?_, honce.landed r hr (by rw [hargs]; exact Option.some_ne_none _), honce.stale r hr⟩
  intro k hk
  obtain ⟨args', hargs', hentry⟩ := honce.payload r hr k hk
  obtain rfl := Option.some.inj (hargs'.symm.trans hargs)
  exact hentry

private def flushed : FileMeta := ⟨"db", "m", "h", "db/m/data/h/a.parquet", 1, 1, 5, 5⟩

private def merged : FileMeta := ⟨"db", "m", "h", "db/m/data/h/c.parquet", 1, 1, 5, 5⟩

/-- The first commit ends in an error although its entry is there; the second
finds the key taken, catches up and lands behind it. -/
private def errorActs : List (AmbiguousAct Bool) :=
  [.plain (.start false (.commit [flushed] [])), .unheard false false,
    .plain (.start true (.commit [merged] [flushed.path])), .plain (.resume true),
    .plain (.resume true), .plain (.resume true), .plain (.resume true), .plain (.resume true)]

theorem heard_commits_once :
    ∃ s, Run ambiguousStep ambiguousOk initial errorActs s ∧
      s.writer = [0, 1] ∧
      ∃ log, Holds s.store log ∧ s.writer.length = log.length ∧ s.writer.Nodup := by
  obtain ⟨s, run, hwriter⟩ := exists_run_with ambiguousStep ambiguousOk
    initial errorActs (fun s => s.writer = [0, 1]) (by decide +kernel)
  obtain ⟨log, hholds, hlen, hnodup, _⟩ := commit_exactly_once run
  exact ⟨s, run, hwriter, log, hholds, hlen, hnodup⟩

/-- A put that is told its key is taken: without the fence the payload is in the
log twice, with it the call is called stale and is in the log. -/
theorem unheard_commit_repeats :
    (∃ s : Cluster Bool, Run ambiguousStep (fun _ _ => True) initial
        [.plain (.start false (.commit [flushed] [])), .unheard false true,
          .plain (.resume false), .plain (.resume false), .plain (.resume false),
          .plain (.resume false)] s ∧
      s.writer = [0, 0] ∧
      (∀ seq ∈ [1, 2], (s.store.lookup (manifestPath seq)).map ManifestEntry.addFiles =
        some [flushed]) ∧
      s.returned.map (fun r => (r.id, r.result)) = [(0, .ok 2)]) ∧
    ∃ s : Cluster Bool, Run ambiguousStep (fun _ _ => True) initial
        [.plain (.start false (.commit [flushed] [])), .plain (.resume false),
          .plain (.start false (.commitReplace [merged] [flushed.path])), .unheard false true,
          .plain (.resume false), .plain (.resume false), .plain (.resume false),
          .plain (.resume false), .plain (.resume false)] s ∧
      s.writer = [0, 1] ∧
      s.returned.map (fun r => (r.id, r.result)) =
        [(0, .ok 1), (1, .error (.alreadyExists flushed.path))] := by
  refine ⟨?_, ?_⟩
  · exact exists_run_with ambiguousStep (fun _ _ => True) _ _ _ (by decide +kernel)
  · exact exists_run_with ambiguousStep (fun _ _ => True) _ _ _ (by decide +kernel)

end Exactly

end TimeLake.Catalog
