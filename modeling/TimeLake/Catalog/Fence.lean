import TimeLake.Catalog.Replicas

/-!
The commit fence. `commit_replace` checks its removals against the local
replica, and the check counts because winning the conditional put at
`head + 1` proves that the replica was the whole log. Under the assumption
that no path is added twice, a path leaves the catalog once, so two successful
replacements never share an input.
-/

namespace TimeLake.Catalog

open TimeLake.Library

/-- The paths of the files a call asks to add. -/
def Call.addedPaths (call : Call) : List String :=
  match call.args with
  | some args => args.addFiles.map FileMeta.path
  | none => []

def Action.addedPaths {ι : Type} : Action ι → List String
  | .start _ call => call.addedPaths
  | _ => []

def addedPaths (log : List ManifestEntry) : List String :=
  log.flatMap fun e => e.addFiles.map FileMeta.path

section Paths

variable {log : List ManifestEntry}

theorem addedPaths_append (log rest : List ManifestEntry) :
    addedPaths (log ++ rest) = addedPaths log ++ addedPaths rest := by
  simp [addedPaths]

theorem mem_addedPaths_of_listed {f : FileMeta} (h : f ∈ listed log) :
    f.path ∈ addedPaths log := by
  induction log using List.reverseRecOn with
  | nil => simp at h
  | append_singleton rest e ih =>
      rw [addedPaths_append, List.mem_append]
      rcases (mem_listed_snoc.mp h).1 with ⟨hold, _⟩ | hnew
      · exact .inl (ih hold)
      · exact .inr (by simpa [addedPaths] using ⟨f, hnew, rfl⟩)

/-- A path that was added and is gone does not come back. -/
theorem not_listed_append {path : String} (rest : List ManifestEntry)
    (hnodup : (addedPaths (log ++ rest)).Nodup) (hadded : path ∈ addedPaths log)
    (hgone : ∀ f ∈ listed log, f.path ≠ path) :
    ∀ f ∈ listed (log ++ rest), f.path ≠ path := by
  induction rest using List.reverseRecOn with
  | nil => simpa using hgone
  | append_singleton rest e ih =>
      rw [← List.append_assoc] at hnodup ⊢
      rw [addedPaths_append, List.nodup_append] at hnodup
      intro f hf hpath
      rcases (mem_listed_snoc.mp hf).1 with ⟨hold, _⟩ | hnew
      · exact ih hnodup.1 f hold hpath
      · have hbefore : f.path ∈ addedPaths (log ++ rest) := by
          rw [hpath, addedPaths_append]
          exact List.mem_append_left _ hadded
        have hnow : f.path ∈ addedPaths [e] := by
          simpa [addedPaths] using ⟨f, hnew, rfl⟩
        exact hnodup.2.2 _ hbefore _ hnow rfl

/-- An entry that removes a listed path leaves it unlisted for good. -/
theorem removed_for_good {e : ManifestEntry} {path : String} (rest : List ManifestEntry)
    (hnodup : (addedPaths (log ++ e :: rest)).Nodup) (hlisted : ∃ f ∈ listed log, f.path = path)
    (hremoved : path ∈ e.removePaths) :
    ∀ f ∈ listed (log ++ e :: rest), f.path ≠ path := by
  have hsplit : log ++ e :: rest = (log ++ [e]) ++ rest := by simp
  rw [hsplit] at hnodup ⊢
  obtain ⟨g, hg, rfl⟩ := hlisted
  have hadded := mem_addedPaths_of_listed hg
  refine not_listed_append rest hnodup ?_ ?_
  · rw [addedPaths_append]
    exact List.mem_append_left _ hadded
  · intro f hf hpath
    rcases (mem_listed_snoc.mp hf).1 with ⟨_, hkept⟩ | hnew
    · exact hkept (hpath ▸ hremoved)
    · rw [addedPaths_append, List.nodup_append, addedPaths_append, List.nodup_append] at hnodup
      have hnow : f.path ∈ addedPaths [e] := by
        simpa [addedPaths] using ⟨f, hnew, rfl⟩
      exact hnodup.1.2.2 _ (hpath ▸ hadded) _ hnow rfl

end Paths

variable {ι : Type}

/-- No path added so far is added twice, whether by the log or by a call that
is still under way. -/
structure FreshInv (s : Cluster ι) (log : List ManifestEntry) (used : List String) : Prop where
  log_nodup : (addedPaths log).Nodup
  log_used : addedPaths log ⊆ used
  pending_nodup : ∀ i op, (s.node i).pending = some op → op.call.addedPaths.Nodup
  pending_used : ∀ i op, (s.node i).pending = some op → op.call.addedPaths ⊆ used
  pending_log : ∀ i op, (s.node i).pending = some op →
    List.Disjoint op.call.addedPaths (addedPaths log)
  pending_pending : ∀ i j op op', i ≠ j → (s.node i).pending = some op →
    (s.node j).pending = some op' → List.Disjoint op.call.addedPaths op'.call.addedPaths

/-- Every call has its own number, and a call that failed wrote nothing. -/
structure CallInv (s : Cluster ι) : Prop where
  pending_lt : ∀ i op, (s.node i).pending = some op → op.id < s.nextId
  pending_inj : ∀ i j op op', (s.node i).pending = some op → (s.node j).pending = some op' →
    op.id = op'.id → i = j
  pending_unwritten : ∀ i op, (s.node i).pending = some op → op.id ∉ s.writer
  writer_lt : ∀ w ∈ s.writer, w < s.nextId
  returned_lt : ∀ r ∈ s.returned, r.id < s.nextId
  returned_ne : ∀ r ∈ s.returned, ∀ i op, (s.node i).pending = some op → r.id ≠ op.id
  failed_unwritten : ∀ r ∈ s.returned, ∀ e, r.result = .error e → r.id ∉ s.writer

/-- The part of it that does not ask what a failed call wrote. -/
structure IdInv (s : Cluster ι) : Prop where
  pending_lt : ∀ i op, (s.node i).pending = some op → op.id < s.nextId
  pending_inj : ∀ i j op op', (s.node i).pending = some op → (s.node j).pending = some op' →
    op.id = op'.id → i = j
  pending_unwritten : ∀ i op, (s.node i).pending = some op → op.id ∉ s.writer
  writer_lt : ∀ w ∈ s.writer, w < s.nextId
  returned_lt : ∀ r ∈ s.returned, r.id < s.nextId
  returned_ne : ∀ r ∈ s.returned, ∀ i op, (s.node i).pending = some op → r.id ≠ op.id

theorem CallInv.ids {s : Cluster ι} (h : CallInv s) : IdInv s :=
  ⟨h.pending_lt, h.pending_inj, h.pending_unwritten, h.writer_lt, h.returned_lt, h.returned_ne⟩

theorem IdInv.callInv {s : Cluster ι} (h : IdInv s)
    (hfailed : ∀ r ∈ s.returned, ∀ e, r.result = .error e → r.id ∉ s.writer) : CallInv s :=
  ⟨h.pending_lt, h.pending_inj, h.pending_unwritten, h.writer_lt, h.returned_lt, h.returned_ne,
    hfailed⟩

/-- The call was a `commit_replace` of these inputs and returned `seq`. -/
def Returned.Replaced (r : Returned) (remove : List String) (seq : Nat) : Prop :=
  (∃ add, r.call = .commitReplace add remove) ∧ r.result = .ok seq

/-- The entry of a replacement sits at its sequence number, and each of its
removals was listed just before. -/
def Landed (log : List ManifestEntry) (remove : List String) (seq : Nat) : Prop :=
  ∃ before e after, log = before ++ e :: after ∧ before.length + 1 = seq ∧
    e.removePaths = remove ∧ ∀ path ∈ remove, ∃ f ∈ listed before, f.path = path

structure ReplaceInv (s : Cluster ι) (log : List ManifestEntry) : Prop where
  landed : ∀ r ∈ s.returned, ∀ remove seq, r.Replaced remove seq → Landed log remove seq
  ordered : s.returned.Pairwise fun r r' => ∀ remove seq remove' seq',
    r.Replaced remove seq → r'.Replaced remove' seq' → seq < seq'

section Frames

variable {s t : Cluster ι} {a : Action ι} {log : List ManifestEntry} {used : List String}

/-- Every call under way after a step was under way before it. -/
def NoNewCall (s t : Cluster ι) : Prop :=
  ∀ j op', (t.node j).pending = some op' →
    ∃ op, (s.node j).pending = some op ∧ op.id = op'.id ∧ op.call = op'.call

theorem noNewCall_of_none {i : ι} (hothers : ∀ k, k ≠ i → t.node k = s.node k)
    (hpending : (t.node i).pending = none) : NoNewCall s t := by
  intro j op' hop'
  by_cases hj : j = i
  · subst hj
    rw [hpending] at hop'
    cases hop'
  · exact ⟨op', by rw [← hothers j hj]; exact hop', rfl, rfl⟩

theorem noNewCall_of_stage {i : ι} {op : Op} {stage : Stage}
    (hothers : ∀ k, k ≠ i → t.node k = s.node k) (hop : (s.node i).pending = some op)
    (hpending : (t.node i).pending = some { op with stage := stage }) : NoNewCall s t := by
  intro j op' hop'
  by_cases hj : j = i
  · subst hj
    rw [hpending] at hop'
    obtain rfl := Option.some.inj hop'
    exact ⟨op, hop, rfl, rfl⟩
  · exact ⟨op', by rw [← hothers j hj]; exact hop', rfl, rfl⟩

theorem FreshInv.frame (h : FreshInv s log used) (hkeep : NoNewCall s t) :
    FreshInv t log used where
  log_nodup := h.log_nodup
  log_used := h.log_used
  pending_nodup := by
    intro i op' hop'
    obtain ⟨op, hop, _, hcall⟩ := hkeep i op' hop'
    exact hcall ▸ h.pending_nodup i op hop
  pending_used := by
    intro i op' hop'
    obtain ⟨op, hop, _, hcall⟩ := hkeep i op' hop'
    exact hcall ▸ h.pending_used i op hop
  pending_log := by
    intro i op' hop'
    obtain ⟨op, hop, _, hcall⟩ := hkeep i op' hop'
    exact hcall ▸ h.pending_log i op hop
  pending_pending := by
    intro i j op₁ op₂ hij h₁ h₂
    obtain ⟨op, hop, _, hcall⟩ := hkeep i op₁ h₁
    obtain ⟨op', hop', _, hcall'⟩ := hkeep j op₂ h₂
    exact hcall ▸ hcall' ▸ h.pending_pending i j op op' hij hop hop'

theorem FreshInv.start {i : ι} {call : Call} (h : FreshInv s log used)
    (hothers : ∀ k, k ≠ i → t.node k = s.node k)
    (hpending : (t.node i).pending = some ⟨s.nextId, call, call.firstStage⟩)
    (hfresh : (used ++ call.addedPaths).Nodup) :
    FreshInv t log (used ++ call.addedPaths) := by
  obtain ⟨_, hcall, hdisj⟩ := List.nodup_append.mp hfresh
  have hnew : ∀ {l : List String}, l ⊆ used → List.Disjoint call.addedPaths l :=
    fun hl path hpath hin => hdisj _ (hl hin) _ hpath rfl
  have hold : ∀ j op, j ≠ i → (t.node j).pending = some op → (s.node j).pending = some op :=
    fun j op hj hop => by rw [← hothers j hj]; exact hop
  have hself : ∀ op, (t.node i).pending = some op → op.call = call := by
    intro op hop
    rw [hpending] at hop
    obtain rfl := Option.some.inj hop
    rfl
  refine ⟨h.log_nodup, fun p hp => List.mem_append_left _ (h.log_used hp), ?_, ?_, ?_, ?_⟩
  · intro j op hop
    by_cases hj : j = i
    · subst hj
      rw [hself op hop]
      exact hcall
    · exact h.pending_nodup j op (hold j op hj hop)
  · intro j op hop
    by_cases hj : j = i
    · subst hj
      rw [hself op hop]
      exact List.subset_append_right _ _
    · exact fun p hp => List.mem_append_left _ (h.pending_used j op (hold j op hj hop) hp)
  · intro j op hop
    by_cases hj : j = i
    · subst hj
      rw [hself op hop]
      exact hnew h.log_used
    · exact h.pending_log j op (hold j op hj hop)
  · intro j k op op' hjk hop hop'
    by_cases hj : j = i
    · subst hj
      rw [hself op hop]
      exact hnew (h.pending_used k op' (hold k op' hjk.symm hop'))
    · by_cases hk : k = i
      · subst hk
        rw [hself op' hop']
        exact fun _ hp hp' => hnew (h.pending_used j op (hold j op hj hop)) hp' hp
      · exact h.pending_pending j k op op' hjk (hold j op hj hop) (hold k op' hk hop')

theorem FreshInv.commit {i : ι} {op : Op} {args : CommitArgs} (h : FreshInv s log used)
    (hothers : ∀ k, k ≠ i → t.node k = s.node k) (hop : (s.node i).pending = some op)
    (hargs : op.call.args = some args) (hpending : (t.node i).pending = none) :
    FreshInv t (log ++ [args.entry (log.length + 1)]) used := by
  have hpaths : addedPaths [args.entry (log.length + 1)] = op.call.addedPaths := by
    simp [addedPaths, CommitArgs.entry, Call.addedPaths, hargs]
  have hframe := h.frame (noNewCall_of_none hothers hpending)
  refine ⟨?_, ?_, hframe.pending_nodup, hframe.pending_used, ?_, hframe.pending_pending⟩
  · rw [addedPaths_append, hpaths]
    exact h.log_nodup.append (h.pending_nodup i op hop)
      fun _ hp hp' => h.pending_log i op hop hp' hp
  · rw [addedPaths_append, hpaths]
    exact List.append_subset.mpr ⟨h.log_used, h.pending_used i op hop⟩
  · intro j op' hop'
    have hj : j ≠ i := by
      rintro rfl
      rw [hpending] at hop'
      cases hop'
    have hold : (s.node j).pending = some op' := by rw [← hothers j hj]; exact hop'
    rw [addedPaths_append, hpaths]
    exact List.disjoint_append_right.mpr
      ⟨h.pending_log j op' hold, h.pending_pending j i op' op hj hold hop⟩

theorem FreshInv.mono (h : FreshInv s log used) (more : List String) :
    FreshInv s log (used ++ more) :=
  ⟨h.log_nodup, fun _ hp => List.mem_append_left _ (h.log_used hp), h.pending_nodup,
    fun i op hop _ hp => List.mem_append_left _ (h.pending_used i op hop hp),
    h.pending_log, h.pending_pending⟩

/-- One step keeps the paths fresh when the call it starts adds fresh paths. -/
theorem FreshInv.step {i : ι} {log' : List ManifestEntry} (h : FreshInv s log used)
    (heff : Effect s a t log i log') (hothers : ∀ k, k ≠ i → t.node k = s.node k)
    (hfresh : (used ++ a.addedPaths).Nodup) : FreshInv t log' (used ++ a.addedPaths) := by
  cases heff with
  | started call hact _ hpending =>
      subst hact
      exact h.start hothers hpending hfresh
  | progressed op stage hop hpending =>
      exact (h.frame (noNewCall_of_stage hothers hop hpending)).mono _
  | returned op result hop hpending =>
      exact (h.frame (noNewCall_of_none hothers hpending)).mono _
  | committed op args _ hop _ hargs _ hpending =>
      exact (h.commit hothers hop hargs hpending).mono _

/-- A step that starts no call, writes nothing and reports nothing. -/
theorem IdInv.frame (h : IdInv s) (hkeep : NoNewCall s t) (hnext : t.nextId = s.nextId)
    (hwriter : t.writer = s.writer) (hreturned : t.returned = s.returned) : IdInv t where
  pending_lt := by
    intro i op' hop'
    obtain ⟨op, hop, hid, _⟩ := hkeep i op' hop'
    rw [hnext, ← hid]
    exact h.pending_lt i op hop
  pending_inj := by
    intro i j op₁ op₂ h₁ h₂ heq
    obtain ⟨op, hop, hid, _⟩ := hkeep i op₁ h₁
    obtain ⟨op', hop', hid', _⟩ := hkeep j op₂ h₂
    exact h.pending_inj i j op op' hop hop' (by rw [hid, hid', heq])
  pending_unwritten := by
    intro i op' hop'
    obtain ⟨op, hop, hid, _⟩ := hkeep i op' hop'
    rw [hwriter, ← hid]
    exact h.pending_unwritten i op hop
  writer_lt := by rw [hwriter, hnext]; exact h.writer_lt
  returned_lt := by rw [hreturned, hnext]; exact h.returned_lt
  returned_ne := by
    intro r hr i op' hop'
    obtain ⟨op, hop, hid, _⟩ := hkeep i op' hop'
    rw [hreturned] at hr
    rw [← hid]
    exact h.returned_ne r hr i op hop

theorem IdInv.start {i : ι} {call : Call} (h : IdInv s)
    (hothers : ∀ k, k ≠ i → t.node k = s.node k)
    (hpending : (t.node i).pending = some ⟨s.nextId, call, call.firstStage⟩)
    (hnext : t.nextId = s.nextId + 1) (hwriter : t.writer = s.writer)
    (hreturned : t.returned = s.returned) : IdInv t := by
  have hcases : ∀ j op, (t.node j).pending = some op →
      (j = i ∧ op.id = s.nextId) ∨ (j ≠ i ∧ (s.node j).pending = some op) := by
    intro j op hop
    by_cases hj : j = i
    · subst hj
      rw [hpending] at hop
      obtain rfl := Option.some.inj hop
      exact .inl ⟨rfl, rfl⟩
    · exact .inr ⟨hj, by rw [← hothers j hj]; exact hop⟩
  refine ⟨?_, ?_, ?_, ?_, ?_, ?_⟩
  · intro j op hop
    rw [hnext]
    rcases hcases j op hop with ⟨_, hid⟩ | ⟨_, hold⟩
    · omega
    · have := h.pending_lt j op hold
      omega
  · intro j k op op' hop hop' heq
    rcases hcases j op hop with ⟨hj, hid⟩ | ⟨_, hold⟩ <;>
      rcases hcases k op' hop' with ⟨hk, hid'⟩ | ⟨_, hold'⟩
    · rw [hj, hk]
    · have := h.pending_lt k op' hold'
      omega
    · have := h.pending_lt j op hold
      omega
    · exact h.pending_inj j k op op' hold hold' heq
  · intro j op hop hin
    rw [hwriter] at hin
    rcases hcases j op hop with ⟨_, hid⟩ | ⟨_, hold⟩
    · have := h.writer_lt _ hin
      omega
    · exact h.pending_unwritten j op hold hin
  · intro w hw
    have := h.writer_lt w (hwriter ▸ hw)
    omega
  · intro r hr
    have := h.returned_lt r (hreturned ▸ hr)
    omega
  · intro r hr j op hop
    rw [hreturned] at hr
    rcases hcases j op hop with ⟨_, hid⟩ | ⟨_, hold⟩
    · have := h.returned_lt r hr
      omega
    · exact h.returned_ne r hr j op hold

theorem IdInv.finish {i : ι} {op : Op} {result : Except IoError Nat} (h : IdInv s)
    (hothers : ∀ k, k ≠ i → t.node k = s.node k) (hop : (s.node i).pending = some op)
    (hpending : (t.node i).pending = none) (hnext : t.nextId = s.nextId)
    (hreturned : t.returned = s.returned ++ [⟨op.id, op.call, result⟩])
    (hwriter : t.writer = s.writer ∨ t.writer = s.writer ++ [op.id]) : IdInv t := by
  have hlt := h.pending_lt i op hop
  have hold : ∀ j op', (t.node j).pending = some op' → j ≠ i ∧ (s.node j).pending = some op' := by
    intro j op' hop'
    have hj : j ≠ i := by
      rintro rfl
      rw [hpending] at hop'
      cases hop'
    exact ⟨hj, by rw [← hothers j hj]; exact hop'⟩
  have hmem : ∀ w ∈ t.writer, w ∈ s.writer ∨ w = op.id := by
    intro w hw
    rcases hwriter with heq | heq
    · exact .inl (heq ▸ hw)
    · rwa [heq, List.mem_append, List.mem_singleton] at hw
  refine ⟨?_, ?_, ?_, ?_, ?_, ?_⟩
  · intro j op' hop'
    rw [hnext]
    exact h.pending_lt j op' (hold j op' hop').2
  · intro j k op₁ op₂ h₁ h₂
    exact h.pending_inj j k op₁ op₂ (hold j op₁ h₁).2 (hold k op₂ h₂).2
  · intro j op' hop' hin
    obtain ⟨hj, hop''⟩ := hold j op' hop'
    rcases hmem _ hin with hin | hid
    · exact h.pending_unwritten j op' hop'' hin
    · exact hj (h.pending_inj j i op' op hop'' hop hid)
  · intro w hw
    rw [hnext]
    rcases hmem w hw with hin | rfl
    · exact h.writer_lt w hin
    · exact hlt
  · intro r hr
    rw [hnext]
    rw [hreturned, List.mem_append, List.mem_singleton] at hr
    rcases hr with hr | rfl
    · exact h.returned_lt r hr
    · exact hlt
  · intro r hr j op' hop' heq
    obtain ⟨hj, hop''⟩ := hold j op' hop'
    rw [hreturned, List.mem_append, List.mem_singleton] at hr
    rcases hr with hr | rfl
    · exact h.returned_ne r hr j op' hop'' heq
    · exact hj (h.pending_inj j i op' op hop'' hop heq.symm)

/-- A call returns: it either wrote its entry in this step or never did. -/
theorem CallInv.finish {i : ι} {op : Op} {result : Except IoError Nat} (h : CallInv s)
    (hothers : ∀ k, k ≠ i → t.node k = s.node k) (hop : (s.node i).pending = some op)
    (hpending : (t.node i).pending = none) (hnext : t.nextId = s.nextId)
    (hreturned : t.returned = s.returned ++ [⟨op.id, op.call, result⟩])
    (hwriter : t.writer = s.writer ∨
      (t.writer = s.writer ++ [op.id] ∧ ∃ seq, result = .ok seq)) : CallInv t := by
  have hids := h.ids.finish hothers hop hpending hnext hreturned (hwriter.imp id And.left)
  refine hids.callInv ?_
  intro r hr e he hin
  have hmem : r.id ∈ s.writer ∨ (r.id = op.id ∧ ∃ seq, result = .ok seq) := by
    rcases hwriter with heq | ⟨heq, hseq⟩
    · exact .inl (heq ▸ hin)
    · rw [heq, List.mem_append, List.mem_singleton] at hin
      exact hin.imp id fun hid => ⟨hid, hseq⟩
  rw [hreturned, List.mem_append, List.mem_singleton] at hr
  rcases hr with hr | rfl
  · rcases hmem with hin | ⟨hid, _⟩
    · exact h.failed_unwritten r hr e he hin
    · exact h.returned_ne r hr i op hop hid
  · rcases hmem with hin | ⟨_, seq, hseq⟩
    · exact h.pending_unwritten i op hop hin
    · cases hseq.symm.trans he

theorem CallInv.step {i : ι} {log' : List ManifestEntry} (h : CallInv s)
    (heff : Effect s a t log i log') (hothers : ∀ k, k ≠ i → t.node k = s.node k) :
    CallInv t := by
  cases heff with
  | started call _ _ hpending hnext hwriter hreturned =>
      refine (h.ids.start hothers hpending hnext hwriter hreturned).callInv ?_
      rw [hreturned, hwriter]
      exact h.failed_unwritten
  | progressed op stage hop hpending hnext hwriter hreturned =>
      have hkeep := noNewCall_of_stage hothers hop hpending
      refine (h.ids.frame hkeep hnext hwriter hreturned).callInv ?_
      rw [hreturned, hwriter]
      exact h.failed_unwritten
  | returned op result hop hpending hnext hwriter hreturned =>
      exact h.finish hothers hop hpending hnext hreturned (.inl hwriter)
  | committed op args _ hop _ _ _ hpending hnext hwriter hreturned =>
      exact h.finish hothers hop hpending hnext hreturned (.inr ⟨hwriter, _, rfl⟩)

theorem Landed.append {remove : List String} {seq : Nat} (h : Landed log remove seq)
    (e : ManifestEntry) : Landed (log ++ [e]) remove seq := by
  obtain ⟨before, e', after, rfl, hseq, hremove, hlisted⟩ := h
  exact ⟨before, e', after ++ [e], by simp, hseq, hremove, hlisted⟩

theorem Landed.seq_le {remove : List String} {seq : Nat} (h : Landed log remove seq) :
    seq ≤ log.length := by
  obtain ⟨before, e, after, rfl, hseq, _⟩ := h
  simp only [List.length_append, List.length_cons]
  omega

/-- The fence passed on the whole log, so the removals are listed in it. -/
theorem landed_of_fence {call : Call} {args : CommitArgs} {remove : List String}
    (hcall : ∃ add, call = .commitReplace add remove) (hargs : call.args = some args)
    (hfence : args.missing (indexOf log).files = none) :
    Landed (log ++ [args.entry (log.length + 1)]) remove (log.length + 1) := by
  obtain ⟨add, rfl⟩ := hcall
  obtain rfl := Option.some.inj hargs
  exact ⟨log, _, [], rfl, rfl, rfl, firstAbsent_eq_none.mp hfence⟩

theorem ReplaceInv.step {i : ι} {log' : List ManifestEntry} (h : ReplaceInv s log)
    (heff : Effect s a t log i log') : ReplaceInv t log' := by
  cases heff with
  | started call _ _ _ _ _ hreturned =>
      exact ⟨by rw [hreturned]; exact h.landed, by rw [hreturned]; exact h.ordered⟩
  | progressed op stage _ _ _ _ hreturned =>
      exact ⟨by rw [hreturned]; exact h.landed, by rw [hreturned]; exact h.ordered⟩
  | returned op result hop _ _ _ hreturned hresult =>
      have hnot : ∀ remove seq, ¬ Returned.Replaced ⟨op.id, op.call, result⟩ remove seq := by
        rintro remove seq ⟨⟨add, hcall⟩, hres⟩
        have hcall' : op.call = .commitReplace add remove := hcall
        have := hresult seq hres
        rw [hcall'] at this
        cases this
      refine ⟨?_, ?_⟩
      · intro r hr remove seq hrep
        rw [hreturned, List.mem_append, List.mem_singleton] at hr
        rcases hr with hr | rfl
        · exact h.landed r hr remove seq hrep
        · exact absurd hrep (hnot remove seq)
      · rw [hreturned, List.pairwise_append]
        refine ⟨h.ordered, List.pairwise_singleton _ _, ?_⟩
        intro r _ r' hr' remove seq remove' seq' _ hrep'
        rw [List.mem_singleton.mp hr'] at hrep'
        exact absurd hrep' (hnot remove' seq')
  | committed op args _ hop _ hargs hfence _ _ _ hreturned =>
      refine ⟨?_, ?_⟩
      · intro r hr remove seq hrep
        rw [hreturned, List.mem_append, List.mem_singleton] at hr
        rcases hr with hr | rfl
        · exact (h.landed r hr remove seq hrep).append _
        · obtain ⟨hcall, hres⟩ := hrep
          obtain rfl := Except.ok.inj hres
          exact landed_of_fence hcall hargs hfence
      · rw [hreturned, List.pairwise_append]
        refine ⟨h.ordered, List.pairwise_singleton _ _, ?_⟩
        intro r hr r' hr' remove seq remove' seq' hrep hrep'
        obtain rfl := List.mem_singleton.mp hr'
        obtain ⟨_, hres⟩ := hrep'
        obtain rfl := Except.ok.inj hres
        have := (h.landed r hr remove seq hrep).seq_le
        omega

end Frames

/-- Two replacements in one log without repeated additions share no input. -/
theorem disjoint_of_landed {log : List ManifestEntry} {remove remove' : List String}
    {seq seq' : Nat} (hnodup : (addedPaths log).Nodup) (hlt : seq < seq')
    (h : Landed log remove seq) (h' : Landed log remove' seq') :
    List.Disjoint remove remove' := by
  intro path hpath hpath'
  obtain ⟨before, e, after, rfl, rfl, rfl, hlisted⟩ := h
  obtain ⟨before', e', after', heq, rfl, rfl, hlisted'⟩ := h'
  obtain ⟨mid, hmid⟩ : ∃ mid, before' = before ++ e :: mid := by
    have hpre : before ++ [e] <+: before' := by
      have hfirst : before ++ [e] <+: before ++ e :: after := ⟨after, by simp⟩
      have hsecond : before' <+: before ++ e :: after := ⟨e' :: after', heq.symm⟩
      exact List.prefix_of_prefix_length_le hfirst hsecond (by simp; omega)
    obtain ⟨mid, hmid⟩ := hpre
    exact ⟨mid, by simp [← hmid]⟩
  have hnodup' : (addedPaths (before ++ e :: mid)).Nodup := by
    rw [heq, hmid, addedPaths_append] at hnodup
    exact (List.nodup_append.mp hnodup).1
  obtain ⟨f, hf, hfpath⟩ := hlisted' path hpath'
  rw [hmid] at hf
  exact removed_for_good mid hnodup' (hlisted path hpath) hpath f hf hfpath

/-- The commit fence, seen from a state of the cluster and its log: no two
successful replacements share an input, every input was listed in the log
just before its entry, and a refused call wrote no entry, neither in the step
that returned the refusal nor before. -/
structure Fenced [DecidableEq ι] (s : Cluster ι) (log : List ManifestEntry) : Prop where
  holds : Holds s.store log
  disjoint : s.returned.Pairwise fun r r' => ∀ remove seq remove' seq',
    r.Replaced remove seq → r'.Replaced remove' seq' → List.Disjoint remove remove'
  landed : ∀ r ∈ s.returned, ∀ remove seq, r.Replaced remove seq → Landed log remove seq
  written : s.writer.length = log.length
  refused : ∀ r ∈ s.returned, ∀ path, r.result = .error (.alreadyExists path) →
    r.id ∉ s.writer
  unchanged : ∀ a t r path, step s a = some t → t.returned = s.returned ++ [r] →
    r.result = .error (.alreadyExists path) → Holds t.store log ∧ t.writer = s.writer

section Fence

variable [DecidableEq ι]

private theorem refusal_unchanged {s t : Cluster ι} {a : Action ι} {log : List ManifestEntry}
    {r : Returned} {path : String} (h : Inv s log) (hs : step s a = some t)
    (hreturned : t.returned = s.returned ++ [r])
    (hresult : r.result = .error (.alreadyExists path)) :
    Holds t.store log ∧ t.writer = s.writer := by
  obtain ⟨i, log', hinv, heff, _⟩ := step_effect h hs
  cases heff with
  | started call _ _ _ _ _ hsame =>
      rw [hsame] at hreturned
      simp at hreturned
  | progressed op stage _ _ _ _ hsame =>
      rw [hsame] at hreturned
      simp at hreturned
  | returned op result _ _ _ hwriter _ _ => exact ⟨hinv.holds, hwriter⟩
  | committed op args _ _ _ _ _ _ _ _ hok =>
      rw [hok] at hreturned
      obtain rfl := List.singleton_inj.mp (List.append_cancel_left hreturned)
      cases hresult

/-- What a run keeps while the paths its calls add are fresh. -/
private structure RunInv (s : Cluster ι) (log : List ManifestEntry) (used : List String) :
    Prop where
  base : Inv s log
  fresh : FreshInv s log used
  calls : CallInv s
  replaced : ReplaceInv s log
  written : s.writer.length = log.length

omit [DecidableEq ι] in
private theorem runInv_initial : RunInv (initial : Cluster ι) [] [] where
  base := inv_initial
  fresh := ⟨List.nodup_nil, List.Subset.refl _, by simp [initial], by simp [initial],
    by simp [initial], by simp [initial]⟩
  calls := by constructor <;> simp [initial]
  replaced := by constructor <;> simp [initial]
  written := rfl

private theorem RunInv.step {s t : Cluster ι} {a : Action ι} {log : List ManifestEntry}
    {used : List String} (h : RunInv s log used) (hs : step s a = some t)
    (hfresh : (used ++ a.addedPaths).Nodup) :
    ∃ log', RunInv t log' (used ++ a.addedPaths) := by
  obtain ⟨i, log', hinv, heff, hothers⟩ := step_effect h.base hs
  refine ⟨log', hinv, h.fresh.step heff hothers hfresh, h.calls.step heff hothers,
    h.replaced.step heff, ?_⟩
  cases heff with
  | started call _ _ _ _ hwriter => rw [hwriter]; exact h.written
  | progressed op stage _ _ _ hwriter => rw [hwriter]; exact h.written
  | returned op result _ _ _ hwriter => rw [hwriter]; exact h.written
  | committed op args _ _ _ _ _ _ _ hwriter => simp [hwriter, h.written]

/-- **The commit fence.** In every interleaving of the calls of the instances
that share a bucket, where no path is added twice, the cluster is fenced. -/
theorem commit_fence {acts : List (Action ι)} {s : Cluster ι}
    (run : Run step (fun _ _ => True) initial acts s)
    (hfresh : (acts.flatMap Action.addedPaths).Nodup) : ∃ log, Fenced s log := by
  have hinv : (acts.flatMap Action.addedPaths).Nodup →
      ∃ log, RunInv s log (acts.flatMap Action.addedPaths) := by
    refine run.invariant_trace (P := fun s done => (done.flatMap Action.addedPaths).Nodup →
      ∃ log, RunInv s log (done.flatMap Action.addedPaths)) ?_ fun _ => ⟨[], runInv_initial⟩
    intro s done a t ih _ hs hnodup
    have hsplit : (done ++ [a]).flatMap Action.addedPaths =
        done.flatMap Action.addedPaths ++ a.addedPaths := by simp
    rw [hsplit] at hnodup ⊢
    obtain ⟨log, h⟩ := ih (List.nodup_append.mp hnodup).1
    exact h.step hs hnodup
  obtain ⟨log, h⟩ := hinv hfresh
  refine ⟨log, h.base.holds, ?_, h.replaced.landed, h.written,
    fun r hr path hres => h.calls.failed_unwritten r hr _ hres,
    fun a t r path hs hret hres => refusal_unchanged h.base hs hret hres⟩
  refine List.Pairwise.imp_of_mem ?_ h.replaced.ordered
  intro r r' hr hr' hlt remove seq remove' seq' hrep hrep'
  exact disjoint_of_landed h.fresh.log_nodup (hlt _ _ _ _ hrep hrep')
    (h.replaced.landed r hr _ _ hrep) (h.replaced.landed r' hr' _ _ hrep')

/-- Two instances hold the same input: the first replacement lands, the second
loses the race for the key, reads the winner's entry and is refused. -/
private def twoCompactors : List (Action Bool) :=
  let merged (path : String) : FileMeta := ⟨"db", "cpu", "1970-01-01T00", path, 1, 1, 0, 0⟩
  [.start false (.commit [merged "in"] []), .resume false, .start true .catchUp, .resume true,
    .resume true, .resume true, .start false (.commitReplace [merged "a"] ["in"]),
    .start true (.commitReplace [merged "b"] ["in"]), .resume false, .resume true, .resume true,
    .resume true, .resume true, .resume true, .resume true]

theorem twoCompactors_fenced : ∃ s : Cluster Bool,
    Run step (fun _ _ => True) initial twoCompactors s ∧
    s.returned.map (fun r => r.result.toOption) = [some 1, some 1, some 2, none] ∧
    ∃ log, Fenced s log := by
  obtain ⟨s, run, hseen⟩ := exists_run_of_checkedRun step (fun _ _ => True)
    (initial : Cluster Bool) twoCompactors (fun s => s.returned.map fun r => r.result.toOption)
    [some 1, some 1, some 2, none] (by decide +kernel)
  exact ⟨s, run, hseen, commit_fence run (by decide)⟩

end Fence

end TimeLake.Catalog
