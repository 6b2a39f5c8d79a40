import TimeLake.Grace.Machine

/-!
What a step of the one node does to its deletion queue and to the passes over it. Apart
from a boot and from the start of a pass, a step only appends to the queue, a pass only
loses paths, and the node stays at the end of the log.
-/

namespace TimeLake.Grace

open TimeLake.Library TimeLake.Catalog TimeLake.Rows TimeLake.Store TimeLake.Cluster

structure Grows (s t : Cluster.State Unit) : Prop where
  queue : (s.node ()).pendingGc <+: (t.node ()).pendingGc
  due : ∀ k due, t.task () k = some (.gc due) →
    ∃ due', s.task () k = some (.gc due') ∧ due ⊆ due'
  head : (s.node ()).head = s.log.length → (t.node ()).head = t.log.length

section Grows

variable {s t u : Cluster.State Unit} {i : Unit} {k : Nat} {o : Option Task}

theorem Grows.refl (s : Cluster.State Unit) : Grows s s :=
  ⟨List.prefix_refl _, fun _ due h => ⟨due, h, List.Subset.refl _⟩, id⟩

theorem Grows.trans (h : Grows s t) (h' : Grows t u) : Grows s u := by
  refine ⟨h.queue.trans h'.queue, ?_, fun hhead => h'.head (h.head hhead)⟩
  intro k due hu
  obtain ⟨due', ht, hsub⟩ := h'.due k due hu
  obtain ⟨due'', hs, hsub'⟩ := h.due k due' ht
  exact ⟨due'', hs, fun p hp => hsub' (hsub hp)⟩

/-- Objects, rows and tags do not matter. -/
theorem Grows.congr (h : Grows s t) (hnode : u.node = t.node) (htask : u.task = t.task)
    (hlog : u.log = t.log) : Grows s u := by
  refine ⟨?_, ?_, ?_⟩
  · rw [hnode]
    exact h.queue
  · rw [htask]
    exact h.due
  · rw [hnode, hlog]
    exact h.head

theorem Grows.setNode (h : Grows s t) (n : Cluster.Node)
    (hqueue : (t.node i).pendingGc <+: n.pendingGc)
    (hhead : (t.node i).head = t.log.length → n.head = t.log.length) :
    Grows s (t.setNode i n) := by
  refine h.trans ⟨?_, fun _ due h => ⟨due, h, List.Subset.refl _⟩, ?_⟩
  · simpa [State.setNode] using hqueue
  · simpa [State.setNode] using hhead

/-- A slot gets a task that is no pass, or is emptied. -/
theorem Grows.setTask (h : Grows s t) (ho : ∀ due, o ≠ some (.gc due)) :
    Grows s (t.setTask i k o) := by
  refine h.trans ⟨List.prefix_refl _, ?_, id⟩
  intro l due hl
  by_cases hkl : l = k
  · subst hkl
    simp only [State.setTask, Function.update_self] at hl
    exact absurd hl (ho due)
  · refine ⟨due, ?_, List.Subset.refl _⟩
    simpa [State.setTask, hkl] using hl

theorem Grows.countFile (h : Grows s t) (bumped : Bool) : Grows s (countFile t i bumped) :=
  h.setNode _ (List.prefix_refl _) id

theorem Grows.put (h : Grows s t) (tag : FileTag) (rows : List Row) :
    Grows s (t.put i tag rows) :=
  (h.setNode { t.node i with fileSeq := (t.node i).fileSeq + 1 } (List.prefix_refl _) id).congr
    rfl rfl rfl

theorem Grows.commit (h : Grows s t) (args : CommitArgs) : Grows s (t.commit i args) := by
  refine h.trans ⟨?_, fun _ due h => ⟨due, h, List.Subset.refl _⟩, fun _ => ?_⟩
  · simp [State.commit, State.setNode]
  · simp [State.commit, State.setNode]

theorem Grows.deferGc (h : Grows s t) (paths : List String) : Grows s (t.deferGc i paths) :=
  h.setNode _ (List.prefix_append _ _) id

end Grows

section Steps

variable {s t : Cluster.State Unit} {i : Unit} {k : Nat}

theorem flushStart_grows {columns : TableKey → List String}
    (h : flushStart s i k columns = some t) : Grows s t := by
  simp only [flushStart] at h
  split at h
  · obtain rfl := Option.some.inj h
    refine ((Grows.refl s).setNode { s.node i with buffer := [] } ?_ id).setTask ?_
    · exact List.prefix_refl _
    · simp
  · cases h

theorem flushPut_grows {size : Nat} (h : flushPut s i k size = some t) : Grows s t := by
  simp only [flushPut] at h
  split at h
  · obtain rfl := Option.some.inj h
    refine ((Grows.refl s).put _ _).setTask ?_
    split <;> simp
  · cases h

theorem flushFail_grows {bumped : Bool} (h : flushFail s i k bumped = some t) : Grows s t := by
  simp only [flushFail] at h
  split at h
  · obtain rfl := Option.some.inj h
    refine ((Grows.refl s).countFile bumped).setTask ?_
    simp
  · cases h

theorem flushCommit_grows (h : flushCommit s i k = some t) : Grows s t := by
  simp only [flushCommit] at h
  split at h
  · next current metas done hT =>
      obtain rfl := Option.some.inj h
      have hcommit : Grows s ((s.commit i ⟨metas, [], [], [], [], false⟩).setTask i k none) := by
        refine ((Grows.refl s).commit _).setTask ?_
        simp
      exact hcommit.congr rfl rfl rfl
  · cases h

theorem compactStart_grows {minFiles : Nat} {keys : List GroupKey}
    (h : compactStart s i k minFiles keys = some t) : Grows s t := by
  simp only [compactStart] at h
  split at h
  · obtain rfl := Option.some.inj h
    refine (Grows.refl s).setTask ?_
    simp
  · cases h

theorem compactNext_grows (h : compactNext s i k = some t) : Grows s t := by
  simp only [compactNext] at h
  split at h
  · obtain rfl := Option.some.inj h
    refine (Grows.refl s).setTask ?_
    simp
  · obtain rfl := Option.some.inj h
    refine (Grows.refl s).setTask ?_
    simp
  · cases h

theorem compactRead_grows (h : compactRead s i k = some t) : Grows s t := by
  simp only [compactRead] at h
  split at h
  · split at h
    · obtain rfl := Option.some.inj h
      refine (Grows.refl s).setTask ?_
      simp
    · obtain rfl := Option.some.inj h
      refine (Grows.refl s).setTask ?_
      simp
  · cases h

theorem compactPut_grows {c : Clustering} {size : Nat} (h : compactPut s i k c size = some t) :
    Grows s t := by
  simp only [compactPut] at h
  split at h
  · split at h
    · split at h
      · obtain rfl := Option.some.inj h
        refine (Grows.refl s).setTask ?_
        simp
      · obtain rfl := Option.some.inj h
        refine ((Grows.refl s).put _ _).setTask ?_
        simp
    · cases h
  · cases h

/-- A refused commit leaves the node where its last attempt was: at the end of the log,
if that is where it started. -/
theorem compactCommit_grows {seen : Nat} (h : compactCommit s i k seen = some t) :
    Grows s t := by
  simp only [compactCommit] at h
  split at h
  · split at h
    · next hseen =>
        split at h
        · obtain rfl := Option.some.inj h
          refine (((Grows.refl s).setNode _ ?_ ?_).deferGc _).setTask ?_
          · exact List.prefix_refl _
          · intro hhead
            dsimp only
            omega
          · simp
        · split at h
          · obtain rfl := Option.some.inj h
            refine (((Grows.refl s).commit _).deferGc _).setTask ?_
            simp
          · cases h
    · cases h
  · cases h

theorem rewriteStart_grows (h : rewriteStart s i k = some t) : Grows s t := by
  simp only [rewriteStart] at h
  split at h
  · obtain rfl := Option.some.inj h
    refine (Grows.refl s).setTask ?_
    simp
  · cases h

theorem rewriteRead_grows (h : rewriteRead s i k = some t) : Grows s t := by
  have hset : ∀ o : Option Task, (∀ due, o ≠ some (.gc due)) → Grows s (s.setTask i k o) :=
    fun _ ho => (Grows.refl s).setTask ho
  simp only [rewriteRead] at h
  split at h
  · split at h
    · obtain rfl := Option.some.inj h
      exact hset _ (by simp)
    · split at h
      · obtain rfl := Option.some.inj h
        exact hset _ (by simp)
      · split at h
        · obtain rfl := Option.some.inj h
          exact hset _ (by simp)
        · split at h
          · obtain rfl := Option.some.inj h
            exact hset _ (by simp)
          · split at h <;>
            · obtain rfl := Option.some.inj h
              exact hset _ (by simp)
  · obtain rfl := Option.some.inj h
    exact hset _ (by simp)
  · cases h

theorem rewritePut_grows {c : Clustering} {size : Nat} (h : rewritePut s i k c size = some t) :
    Grows s t := by
  simp only [rewritePut] at h
  split at h
  · split at h
    · split at h
      · obtain rfl := Option.some.inj h
        refine (Grows.refl s).setTask ?_
        simp
      · obtain rfl := Option.some.inj h
        refine ((Grows.refl s).put _ _).setTask ?_
        simp
    · cases h
  · cases h

theorem rewriteCommit_grows (h : rewriteCommit s i k = some t) : Grows s t := by
  simp only [rewriteCommit] at h
  split at h
  · obtain rfl := Option.some.inj h
    refine (((Grows.refl s).commit _).deferGc _).setTask ?_
    simp
  · obtain rfl := Option.some.inj h
    refine (((Grows.refl s).commit _).deferGc _).setTask ?_
    simp
  · cases h

theorem retentionStart_grows {policies : List RetentionPolicy} {now : Int}
    (h : retentionStart s i k policies now = some t) : Grows s t := by
  simp only [retentionStart] at h
  split at h
  · obtain rfl := Option.some.inj h
    refine (Grows.refl s).setTask ?_
    simp
  · cases h

theorem retentionCommit_grows (h : retentionCommit s i k = some t) : Grows s t := by
  simp only [retentionCommit] at h
  split at h
  · obtain rfl := Option.some.inj h
    refine (((Grows.refl s).commit _).deferGc _).setTask ?_
    simp
  · cases h

theorem dropStart_grows {db table : String} (h : dropStart s i k db table = some t) :
    Grows s t := by
  simp only [dropStart] at h
  split at h
  · obtain rfl := Option.some.inj h
    refine (Grows.refl s).setTask ?_
    simp
  · cases h

theorem dropCommit_grows (h : dropCommit s i k = some t) : Grows s t := by
  simp only [dropCommit] at h
  split at h
  · obtain rfl := Option.some.inj h
    refine ((((Grows.refl s).commit _).deferGc _).setNode _ ?_ ?_).setTask ?_
    · exact List.prefix_refl _
    · exact id
    · simp
  · cases h

/-- A pass loses the path it deletes. -/
theorem gcDelete_grows (h : gcDelete s i k = some t) : Grows s t := by
  simp only [gcDelete] at h
  split at h
  · next p due hT =>
      obtain rfl := Option.some.inj h
      refine ⟨List.prefix_refl _, ?_, id⟩
      intro l due' hl
      by_cases hkl : l = k
      · subst hkl
        simp only [State.setTask, Function.update_self, Option.some.injEq, Task.gc.injEq] at hl
        obtain rfl := hl
        exact ⟨p :: due, hT, List.subset_cons_self _ _⟩
      · refine ⟨due', ?_, List.Subset.refl _⟩
        simpa [State.setTask, hkl] using hl
  · obtain rfl := Option.some.inj h
    refine (Grows.refl s).setTask ?_
    simp
  · cases h

theorem abandon_grows {bumped : Bool} (h : abandon s i k bumped = some t) : Grows s t := by
  simp only [abandon] at h
  split at h
  · obtain rfl := Option.some.inj h
    refine ((Grows.refl s).countFile bumped).setTask ?_
    simp
  · cases h

/-- Every step but a boot and the start of a pass. -/
theorem step_grows {a : Cluster.Action Unit} (h : Cluster.step s a = some t)
    (hstart : ∀ i k ready, a ≠ .gcStart i k ready) (hboot : ∀ i rows, a ≠ .restart i rows) :
    Grows s t := by
  cases a with
  | write i key time tags fields =>
      obtain rfl := Option.some.inj h
      have hbuffer : Grows s (s.setNode i { s.node i with
          buffer := (s.node i).buffer ++ [(key, Row.mk time tags fields s.written.length)] }) :=
        (Grows.refl s).setNode _ (List.prefix_refl _) id
      exact hbuffer.congr rfl rfl rfl
  | catchUp i =>
      obtain rfl := Option.some.inj h
      exact (Grows.refl s).setNode _ (List.prefix_refl _) fun _ => rfl
  | tombstone i d =>
      obtain rfl := Option.some.inj h
      exact (Grows.refl s).commit _
  | flushStart i k columns => exact flushStart_grows h
  | flushPut i k size => exact flushPut_grows h
  | flushFail i k bumped => exact flushFail_grows h
  | flushCommit i k => exact flushCommit_grows h
  | compactStart i k minFiles keys => exact compactStart_grows h
  | compactNext i k => exact compactNext_grows h
  | compactRead i k => exact compactRead_grows h
  | compactPut i k c size => exact compactPut_grows h
  | compactCommit i k seen => exact compactCommit_grows h
  | rewriteStart i k => exact rewriteStart_grows h
  | rewriteRead i k => exact rewriteRead_grows h
  | rewritePut i k c size => exact rewritePut_grows h
  | rewriteCommit i k => exact rewriteCommit_grows h
  | retentionStart i k policies now => exact retentionStart_grows h
  | retentionCommit i k => exact retentionCommit_grows h
  | dropStart i k db table => exact dropStart_grows h
  | dropCommit i k => exact dropCommit_grows h
  | gcStart i k ready => exact absurd rfl (hstart i k ready)
  | gcDelete i k => exact gcDelete_grows h
  | abandon i k bumped => exact abandon_grows h
  | restart i replayed => exact absurd rfl (hboot i replayed)

end Steps

end TimeLake.Grace
