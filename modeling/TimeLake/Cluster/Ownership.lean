import TimeLake.Cluster.Effect

/-!
Who owns which object. An object belongs to a file of the log, to a file that a
call has written and not yet committed, or to a deletion queue. As long as no
write lands on an object in use, no two files of the log share one, no output
shares one with anything, and nothing in a queue is listed.
-/

namespace TimeLake.Cluster

open TimeLake.Library TimeLake.Catalog TimeLake.Rows TimeLake.Store

variable {ι : Type}

/-- Every file the log ever added. -/
def addedFiles (log : List ManifestEntry) : List FileMeta :=
  log.flatMap ManifestEntry.addFiles

theorem addedFiles_snoc (log : List ManifestEntry) (e : ManifestEntry) :
    addedFiles (log ++ [e]) = addedFiles log ++ e.addFiles := by
  simp [addedFiles]

theorem addedFiles_take_subset (log : List ManifestEntry) (n : Nat) :
    addedFiles (log.take n) ⊆ addedFiles log := by
  intro f hf
  obtain ⟨e, he, hfe⟩ := List.mem_flatMap.mp hf
  exact List.mem_flatMap.mpr ⟨e, List.mem_of_mem_take he, hfe⟩

theorem listed_subperm (log : List ManifestEntry) : (listed log).Subperm (addedFiles log) := by
  induction log using List.reverseRecOn with
  | nil => exact List.nil_subperm
  | append_singleton rest e ih =>
      rw [addedFiles_snoc]
      refine (listed_snoc rest e).subperm.trans ?_
      refine List.filter_sublist.subperm.trans ?_
      apply (List.subperm_append_right _).mpr
      exact List.filter_sublist.subperm.trans ih

theorem mem_addedFiles {log : List ManifestEntry} {f : FileMeta} (h : f ∈ listed log) :
    f ∈ addedFiles log :=
  (listed_subperm log).subset h

def outputsAt (s : State ι) (i : ι) (k : Nat) : List FileMeta :=
  ((s.task i k).map Task.outputs).getD []

/-- An object no write may touch: a file of the log, an output under way, or a
path in a deletion queue. -/
def InUse (s : State ι) (q : AbsPath) : Prop :=
  (∃ f ∈ addedFiles s.log, objectOf f = q) ∨ (∃ i k, ∃ f ∈ outputsAt s i k, objectOf f = q) ∨
    ∃ p, Deferred s p ∧ abs p = q

structure Owned (log : List ManifestEntry) (outs : ι → Nat → List FileMeta)
    (deferred : String → Prop) : Prop where
  added_nodup : ((addedFiles log).map objectOf).Nodup
  out_nodup : ∀ i k, ((outs i k).map objectOf).Nodup
  out_added : ∀ i k, ∀ f ∈ outs i k, ∀ g ∈ addedFiles log, objectOf f ≠ objectOf g
  out_out : ∀ i k j l, ¬ (i = j ∧ k = l) → ∀ f ∈ outs i k, ∀ g ∈ outs j l,
    objectOf f ≠ objectOf g
  deferred_listed : ∀ p, deferred p → ∀ f ∈ listed log, objectOf f ≠ abs p
  deferred_out : ∀ p, deferred p → ∀ i k, ∀ f ∈ outs i k, objectOf f ≠ abs p

namespace Owned

variable {log : List ManifestEntry} {outs outs' : ι → Nat → List FileMeta}
  {deferred deferred' : String → Prop}

/-- Two files of the log in one object are one file. -/
theorem added_inj (h : Owned log outs deferred) {f g : FileMeta} (hf : f ∈ addedFiles log)
    (hg : g ∈ addedFiles log) (heq : objectOf f = objectOf g) : f = g :=
  List.inj_on_of_nodup_map h.added_nodup hf hg heq

theorem listed_nodup (h : Owned log outs deferred) : ((listed log).map objectOf).Nodup := by
  obtain ⟨l, hperm, hsub⟩ := listed_subperm log
  exact (hperm.map objectOf).nodup_iff.mp (h.added_nodup.sublist (hsub.map objectOf))

theorem shrink (h : Owned log outs deferred) (houts : ∀ i k, (outs' i k).Sublist (outs i k))
    (hdeferred : ∀ p, deferred' p → deferred p) : Owned log outs' deferred' where
  added_nodup := h.added_nodup
  out_nodup i k := (h.out_nodup i k).sublist ((houts i k).map objectOf)
  out_added i k f hf := h.out_added i k f ((houts i k).subset hf)
  out_out i k j l hne f hf g hg :=
    h.out_out i k j l hne f ((houts i k).subset hf) g ((houts j l).subset hg)
  deferred_listed p hp := h.deferred_listed p (hdeferred p hp)
  deferred_out p hp i k f hf := h.deferred_out p (hdeferred p hp) i k f ((houts i k).subset hf)

/-- One more output, in an object that nothing uses. -/
theorem output (h : Owned log outs deferred) {i : ι} {k : Nat} {f : FileMeta}
    (hself : (outs' i k).Perm (f :: outs i k))
    (hothers : ∀ j l, ¬ (j = i ∧ l = k) → outs' j l = outs j l)
    (hdeferred : ∀ p, deferred' p → deferred p)
    (hadded : ∀ g ∈ addedFiles log, objectOf f ≠ objectOf g)
    (houts : ∀ j l, ∀ g ∈ outs j l, objectOf f ≠ objectOf g)
    (hqueued : ∀ p, deferred p → objectOf f ≠ abs p) : Owned log outs' deferred' := by
  have hmem : ∀ j l, ∀ g ∈ outs' j l, g ∈ outs j l ∨ ((j = i ∧ l = k) ∧ g = f) := by
    intro j l g hg
    by_cases hjl : j = i ∧ l = k
    · obtain ⟨rfl, rfl⟩ := hjl
      rcases List.mem_cons.mp (hself.mem_iff.mp hg) with rfl | hold
      · exact .inr ⟨⟨rfl, rfl⟩, rfl⟩
      · exact .inl hold
    · exact .inl (hothers j l hjl ▸ hg)
  refine ⟨h.added_nodup, ?_, ?_, ?_, fun p hp => h.deferred_listed p (hdeferred p hp), ?_⟩
  · intro j l
    by_cases hjl : j = i ∧ l = k
    · obtain ⟨rfl, rfl⟩ := hjl
      rw [(hself.map objectOf).nodup_iff, List.map_cons, List.nodup_cons]
      refine ⟨?_, h.out_nodup j l⟩
      intro hin
      obtain ⟨g, hg, heq⟩ := List.mem_map.mp hin
      exact houts j l g hg heq.symm
    · rw [hothers j l hjl]
      exact h.out_nodup j l
  · intro j l g hg
    rcases hmem j l g hg with hold | ⟨_, rfl⟩
    · exact h.out_added j l g hold
    · exact hadded
  · intro j l j' l' hne g hg g' hg'
    rcases hmem j l g hg with hold | ⟨hjl, rfl⟩
    · rcases hmem j' l' g' hg' with hold' | ⟨_, rfl⟩
      · exact h.out_out j l j' l' hne g hold g' hold'
      · exact (houts j l g hold).symm
    · rcases hmem j' l' g' hg' with hold' | ⟨hjl', rfl⟩
      · exact houts j' l' g' hold'
      · exact absurd ⟨hjl.1.trans hjl'.1.symm, hjl.2.trans hjl'.2.symm⟩ hne
  · intro p hp j l g hg
    rcases hmem j l g hg with hold | ⟨_, rfl⟩
    · exact h.deferred_out p (hdeferred p hp) j l g hold
    · exact hqueued p (hdeferred p hp)

/-- Outputs of one slot enter the log, and what the entry takes away may enter a
queue. -/
theorem commit (h : Owned log outs deferred) {i : ι} {k : Nat} {e : ManifestEntry}
    {removed : List String} (hadds : e.addFiles.Sublist (outs i k))
    (houts : ∀ j l, (outs' j l).Sublist (outs j l))
    (hself : ∀ f ∈ e.addFiles, ∀ j l, ∀ g ∈ outs' j l, objectOf g ≠ objectOf f)
    (hdeferred : ∀ p, deferred' p → deferred p ∨ p ∈ removed)
    (hremoved : ∀ p ∈ removed, ∃ g ∈ addedFiles log, g.path = p ∧
      (g ∈ listed log → p ∈ e.removePaths ∨ droppedBy e g)) :
    Owned (log ++ [e]) outs' deferred' := by
  have hold := h.shrink houts fun _ hp => hp
  refine ⟨?_, hold.out_nodup, ?_, hold.out_out, ?_, ?_⟩
  · rw [addedFiles_snoc, List.map_append, List.nodup_append]
    refine ⟨h.added_nodup, (h.out_nodup i k).sublist (hadds.map objectOf), ?_⟩
    intro q hq q' hq' heq
    obtain ⟨g, hg, rfl⟩ := List.mem_map.mp hq
    obtain ⟨f, hf, rfl⟩ := List.mem_map.mp hq'
    exact h.out_added i k f (hadds.subset hf) g hg heq.symm
  · intro j l g hg f hf
    rw [addedFiles_snoc] at hf
    rcases List.mem_append.mp hf with hf | hf
    · exact hold.out_added j l g hg f hf
    · exact hself f hf j l g hg
  · intro p hp f hf
    obtain ⟨hwhere, hkept⟩ := mem_listed_snoc.mp hf
    rcases hdeferred p hp with hwas | hnew
    · rcases hwhere with ⟨hlisted, _⟩ | hadd
      · exact h.deferred_listed p hwas f hlisted
      · exact h.deferred_out p hwas i k f (hadds.subset hadd)
    · obtain ⟨g, hg, rfl, hgone⟩ := hremoved p hnew
      rcases hwhere with ⟨hlisted, hpath⟩ | hadd
      · intro heq
        obtain rfl := h.added_inj (mem_addedFiles hlisted) hg heq
        rcases hgone hlisted with hin | hdropped
        · exact hpath hin
        · exact hkept hdropped
      · exact h.out_added i k f (hadds.subset hadd) g hg
  · intro p hp j l f hf
    rcases hdeferred p hp with hwas | hnew
    · exact hold.deferred_out p hwas j l f hf
    · obtain ⟨g, hg, rfl, _⟩ := hremoved p hnew
      exact hold.out_added j l f hf g hg

/-- An output that was never committed goes to a queue. -/
theorem giveUp (h : Owned log outs deferred) {i : ι} {k : Nat} {f : FileMeta}
    (hin : f ∈ outs i k) (houts : ∀ j l, (outs' j l).Sublist (outs j l))
    (hself : ∀ j l, ∀ g ∈ outs' j l, objectOf g ≠ objectOf f)
    (hdeferred : ∀ p, deferred' p → deferred p ∨ p = f.path) : Owned log outs' deferred' := by
  have hold := h.shrink houts fun _ hp => hp
  refine ⟨hold.added_nodup, hold.out_nodup, hold.out_added, hold.out_out, ?_, ?_⟩
  · intro p hp g hg
    rcases hdeferred p hp with hwas | rfl
    · exact h.deferred_listed p hwas g hg
    · exact (h.out_added i k f hin g (mem_addedFiles hg)).symm
  · intro p hp j l g hg
    rcases hdeferred p hp with hwas | rfl
    · exact hold.deferred_out p hwas j l g hg
    · exact hself j l g hg

end Owned

end TimeLake.Cluster
