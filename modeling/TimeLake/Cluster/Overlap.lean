import TimeLake.Cluster.Machine

/-!
The overlap sweep of a compaction pass. `has_overlap` sorts the ranges of the
files and compares each start with the furthest end before it. Nothing in the
scan depends on the order of the ranges; the sort is what makes its one
comparison for each range enough for every pair.
-/

namespace TimeLake.Cluster

open TimeLake.Catalog

abbrev Range := Int × Int

def tsRange (f : FileMeta) : Range := (f.minTsNs, f.maxTsNs)

/-- What the sweep is after: two ranges that share more than an instant, or of
which one lies strictly inside the other, which an instant can do as well. -/
def Overlaps (a b : Range) : Prop :=
  (∃ lo hi, lo < hi ∧ a.1 ≤ lo ∧ b.1 ≤ lo ∧ hi ≤ a.2 ∧ hi ≤ b.2) ∨
    (a.1 < b.1 ∧ b.2 < a.2) ∨ (b.1 < a.1 ∧ a.2 < b.2)

theorem overlaps_comm {a b : Range} : Overlaps a b ↔ Overlaps b a := by
  unfold Overlaps
  constructor
  · rintro (⟨lo, hi, h, ha, hb, ha', hb'⟩ | h | h)
    · exact Or.inl ⟨lo, hi, h, hb, ha, hb', ha'⟩
    · exact Or.inr (Or.inr h)
    · exact Or.inr (Or.inl h)
  · rintro (⟨lo, hi, h, ha, hb, ha', hb'⟩ | h | h)
    · exact Or.inl ⟨lo, hi, h, hb, ha, hb', ha'⟩
    · exact Or.inr (Or.inr h)
    · exact Or.inr (Or.inl h)

/-- For two ranges in this order the one comparison decides. -/
theorem overlaps_iff {a b : Range} (hle : a.1 < b.1 ∨ (a.1 = b.1 ∧ a.2 ≤ b.2))
    (hb : b.1 ≤ b.2) :
    Overlaps a b ↔ b.1 < a.2 := by
  constructor
  · rintro (⟨lo, hi, h, ha, hb, ha', hb'⟩ | h | h)
    · omega
    · omega
    · rcases hle with hle | hle <;> omega
  · intro hlt
    by_cases hpoint : b.1 < b.2
    · refine Or.inl ⟨b.1, min a.2 b.2, by omega, ?_, le_refl _, by omega, by omega⟩
      rcases hle with hle | hle <;> omega
    · refine Or.inr (Or.inl ?_)
      rcases hle with hle | hle <;> omega

def sortedRanges (files : List FileMeta) : List Range :=
  (files.map tsRange).insertionSort fun a b => a.1 < b.1 ∨ (a.1 = b.1 ∧ a.2 ≤ b.2)

theorem sortedRanges_perm (files : List FileMeta) :
    (sortedRanges files).Perm (files.map tsRange) := List.perm_insertionSort _ _

theorem sortedRanges_pairwise (files : List FileMeta) :
    (sortedRanges files).Pairwise fun a b => a.1 < b.1 ∨ (a.1 = b.1 ∧ a.2 ≤ b.2) := by
  have htotal : Std.Total fun a b : Range => a.1 < b.1 ∨ (a.1 = b.1 ∧ a.2 ≤ b.2) :=
    ⟨fun a b => by omega⟩
  have htrans : IsTrans Range fun a b => a.1 < b.1 ∨ (a.1 = b.1 ∧ a.2 ≤ b.2) :=
    ⟨fun a b c => by omega⟩
  exact List.pairwise_insertionSort _ _

/-- The scan with its running maximum is the quadratic comparison. -/
theorem overlapScan_eq_false (furthestEnd : Int) (ranges : List Range) :
    overlapScan furthestEnd ranges = false ↔
      (∀ r ∈ ranges, furthestEnd ≤ r.1) ∧ ranges.Pairwise fun a b => a.2 ≤ b.1 := by
  induction ranges generalizing furthestEnd with
  | nil => simp [overlapScan]
  | cons r rest ih =>
      obtain ⟨start, stop⟩ := r
      rw [overlapScan, List.pairwise_cons, List.forall_mem_cons]
      by_cases hlt : start < furthestEnd
      · rw [if_pos hlt]
        simp only [Bool.true_eq_false, false_iff]
        omega
      · rw [if_neg hlt, ih]
        simp only [max_le_iff, forall_and]
        constructor
        · rintro ⟨⟨hend, hstop⟩, hrest⟩
          exact ⟨⟨by omega, hend⟩, hstop, hrest⟩
        · rintro ⟨⟨-, hend⟩, hstop, hrest⟩
          exact ⟨⟨hend, hstop⟩, hrest⟩

theorem hasOverlap_eq_false (files : List FileMeta) :
    hasOverlap files = false ↔ (sortedRanges files).Pairwise fun a b => a.2 ≤ b.1 := by
  have hscan : hasOverlap files = match sortedRanges files with
      | [] => false
      | first :: rest => overlapScan first.2 rest := rfl
  rw [hscan]
  cases sortedRanges files with
  | nil => simp
  | cons first rest =>
      rw [List.pairwise_cons]
      exact overlapScan_eq_false first.2 rest

/-- Over files with proper ranges the sweep is the pairwise definition. -/
theorem hasOverlap_pairwise {files : List FileMeta}
    (hranges : ∀ f ∈ files, f.minTsNs ≤ f.maxTsNs) :
    hasOverlap files = false ↔ files.Pairwise fun f g => ¬ Overlaps (tsRange f) (tsRange g) := by
  have hproper : ∀ r ∈ sortedRanges files, r.1 ≤ r.2 := by
    intro r hr
    obtain ⟨f, hf, rfl⟩ := List.mem_map.mp ((sortedRanges_perm files).mem_iff.mp hr)
    exact hranges f hf
  have hsorted := sortedRanges_pairwise files
  have hsymm : ∀ {a b : Range}, ¬ Overlaps a b → ¬ Overlaps b a := fun h =>
    mt overlaps_comm.mp h
  calc hasOverlap files = false
      ↔ (sortedRanges files).Pairwise fun a b => a.2 ≤ b.1 := hasOverlap_eq_false files
    _ ↔ (sortedRanges files).Pairwise fun a b => ¬ Overlaps a b := by
        constructor
        · intro h
          refine (hsorted.and h).imp_of_mem fun _ hb hab => ?_
          rw [overlaps_iff hab.1 (hproper _ hb)]
          exact not_lt.mpr hab.2
        · intro h
          refine (hsorted.and h).imp_of_mem fun _ hb hab => ?_
          rw [overlaps_iff hab.1 (hproper _ hb)] at hab
          exact not_lt.mp hab.2
    _ ↔ (files.map tsRange).Pairwise fun a b => ¬ Overlaps a b :=
        (sortedRanges_perm files).pairwise_iff hsymm
    _ ↔ files.Pairwise fun f g => ¬ Overlaps (tsRange f) (tsRange g) := List.pairwise_map

theorem hasOverlap_of_sublist {files more : List FileMeta} (hsub : files.Sublist more)
    (hranges : ∀ f ∈ more, f.minTsNs ≤ f.maxTsNs) (h : hasOverlap files = true) :
    hasOverlap more = true := by
  by_contra hnone
  rw [Bool.not_eq_true, hasOverlap_pairwise hranges] at hnone
  have hfewer := (hasOverlap_pairwise fun f hf => hranges f (hsub.subset hf)).mpr
    (hnone.sublist hsub)
  rw [hfewer] at h
  exact Bool.false_ne_true h

/-- Two files that do not overlap meet in an instant that ends one and begins
the other, if they meet at all. -/
theorem meet_at_end {f g : FileMeta} (hf : f.minTsNs ≤ f.maxTsNs) (hg : g.minTsNs ≤ g.maxTsNs)
    (h : ¬ Overlaps (tsRange f) (tsRange g)) {t : Int} (hft : f.minTsNs ≤ t ∧ t ≤ f.maxTsNs)
    (hgt : g.minTsNs ≤ t ∧ t ≤ g.maxTsNs) :
    (t = f.maxTsNs ∧ t = g.minTsNs) ∨ (t = g.maxTsNs ∧ t = f.minTsNs) := by
  have hcases : (f.minTsNs < g.minTsNs ∨ (f.minTsNs = g.minTsNs ∧ f.maxTsNs ≤ g.maxTsNs)) ∨
      (g.minTsNs < f.minTsNs ∨ (g.minTsNs = f.minTsNs ∧ g.maxTsNs ≤ f.maxTsNs)) := by omega
  rcases hcases with hle | hle
  · have hnot := mt (overlaps_iff (a := tsRange f) (b := tsRange g) hle hg).mpr h
    unfold tsRange at hnot
    dsimp only at hnot
    omega
  · have hnot := mt (overlaps_iff (a := tsRange g) (b := tsRange f) hle hf).mpr
      (mt overlaps_comm.mp h)
    unfold tsRange at hnot
    dsimp only at hnot
    omega

/-- The sweep finds an overlap exactly when two files at different positions
overlap, in the sorted list a later start before an earlier end; neither the
order of the list nor further files hide one; and a partition that is left alone
holds no two files that share an instant, but for one that ends the one and
begins the other. -/
theorem overlap_sweep (files : List FileMeta)
    (hranges : ∀ f ∈ files, f.minTsNs ≤ f.maxTsNs) :
    (hasOverlap files = true ↔ ∃ i j : Fin files.length, i ≠ j ∧
        Overlaps (tsRange (files.get i)) (tsRange (files.get j))) ∧
      (hasOverlap files = true ↔ ∃ i j : Fin (sortedRanges files).length, i < j ∧
        ((sortedRanges files).get j).1 < ((sortedRanges files).get i).2) ∧
      (∀ shuffled, shuffled.Perm files → hasOverlap shuffled = hasOverlap files) ∧
      (∀ more, files.Sublist more → (∀ f ∈ more, f.minTsNs ≤ f.maxTsNs) →
        hasOverlap files = true → hasOverlap more = true) ∧
      (∀ minFiles, triggerFor files minFiles = none → ∀ i j : Fin files.length, i ≠ j → ∀ t,
        (files.get i).minTsNs ≤ t ∧ t ≤ (files.get i).maxTsNs →
        (files.get j).minTsNs ≤ t ∧ t ≤ (files.get j).maxTsNs →
        (t = (files.get i).maxTsNs ∧ t = (files.get j).minTsNs) ∨
          (t = (files.get j).maxTsNs ∧ t = (files.get i).minTsNs)) := by
  have hpositions : hasOverlap files = false ↔ ∀ i j : Fin files.length, i ≠ j →
      ¬ Overlaps (tsRange (files.get i)) (tsRange (files.get j)) := by
    rw [hasOverlap_pairwise hranges, List.pairwise_iff_get]
    constructor
    · intro h i j hij
      rcases lt_or_gt_of_ne hij with hlt | hgt
      · exact h i j hlt
      · exact mt overlaps_comm.mp (h j i hgt)
    · exact fun h i j hlt => h i j hlt.ne
  refine ⟨?_, ?_, ?_, fun more hsub hmore h => hasOverlap_of_sublist hsub hmore h, ?_⟩
  · rw [← Bool.not_eq_false, hpositions]
    push Not
    rfl
  · rw [← Bool.not_eq_false, hasOverlap_eq_false, List.pairwise_iff_get]
    push Not
    rfl
  · intro shuffled hperm
    have hiff : hasOverlap shuffled = false ↔ hasOverlap files = false := by
      rw [hasOverlap_pairwise hranges,
        hasOverlap_pairwise fun f hf => hranges f (hperm.mem_iff.mp hf)]
      exact hperm.pairwise_iff fun h => mt overlaps_comm.mp h
    rw [Bool.eq_iff_iff, ← Bool.not_eq_false, hiff, Bool.not_eq_false]
  · intro minFiles hnone i j hij t hi hj
    have hclear : hasOverlap files = false := by
      by_contra hoverlap
      unfold triggerFor at hnone
      rw [Bool.not_eq_false] at hoverlap
      rw [if_pos hoverlap] at hnone
      split at hnone <;> cases hnone
    exact meet_at_end (hranges _ (List.get_mem _ _)) (hranges _ (List.get_mem _ _))
      (hpositions.mp hclear i j hij) hi hj

def spanning (minTsNs maxTsNs : Int) : FileMeta :=
  { db := "poc", table := "m", partition := "2026080809", path := "p", rows := 1, sizeBytes := 1
    minTsNs, maxTsNs }

/-- One wide file before two narrow ones of which the last lies inside it. -/
theorem wide_file_overlaps :
    hasOverlap [spanning 0 10000, spanning 20000 30000, spanning 5000 5000] = true := by
  refine (overlap_sweep _ ?_).1.mpr ⟨0, 2, by decide, Or.inr (Or.inl ?_)⟩
  · simp [spanning]
  · simp [tsRange, spanning]

end TimeLake.Cluster
