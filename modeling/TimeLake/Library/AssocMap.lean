import Mathlib.Data.List.AList

/-!
Finite maps as association lists with distinct keys, Mathlib's `AList` at a
constant value type, with the operations a hash map has and `AList` lacks:
the list of its values and a change of all values at once. A program that
iterates such a map sees its values in some order; results about `values`
that are used for every order are stated up to permutation.
-/

namespace TimeLake.Library

variable {κ ν : Type*}

abbrev AssocMap (κ ν : Type*) := AList (fun _ : κ => ν)

namespace AssocMap

def values (m : AssocMap κ ν) : List ν :=
  m.entries.map (·.2)

def mapVal (f : ν → ν) (m : AssocMap κ ν) : AssocMap κ ν :=
  ⟨m.entries.map fun e => ⟨e.1, f e.2⟩, by
    have hkeys : (m.entries.map fun e => (⟨e.1, f e.2⟩ : Sigma fun _ : κ => ν)).keys =
        m.entries.keys := by
      simp [List.keys]
    rw [List.NodupKeys, hkeys]
    exact m.nodupKeys⟩

@[simp] theorem values_empty : (∅ : AssocMap κ ν).values = [] := rfl

@[simp] theorem values_mapVal (f : ν → ν) (m : AssocMap κ ν) :
    (mapVal f m).values = m.values.map f := by
  simp [values, mapVal]

variable [DecidableEq κ]

theorem mem_values {m : AssocMap κ ν} {v : ν} :
    v ∈ m.values ↔ ∃ k, m.lookup k = some v := by
  simp only [values, List.mem_map]
  constructor
  · rintro ⟨⟨k, w⟩, hmem, rfl⟩
    exact ⟨k, AList.mem_lookup_iff.mpr hmem⟩
  · rintro ⟨k, hk⟩
    exact ⟨⟨k, v⟩, AList.mem_lookup_iff.mp hk, rfl⟩

@[simp] theorem lookup_mapVal (f : ν → ν) (m : AssocMap κ ν) (k : κ) :
    (mapVal f m).lookup k = (m.lookup k).map f := by
  cases h : m.lookup k with
  | none =>
      rw [AList.lookup_eq_none] at h
      exact AList.lookup_eq_none.mpr
        (by simpa [AList.mem_keys, AList.keys, mapVal, List.keys] using h)
  | some v =>
      have hmem := AList.mem_lookup_iff.mp h
      exact AList.mem_lookup_iff.mpr (List.mem_map.mpr ⟨⟨k, v⟩, hmem, rfl⟩)

/-- The same keys with other values. -/
def withValues {μ : Type*} (f : ν → μ) (m : AssocMap κ ν) : AssocMap κ μ :=
  ⟨m.entries.map fun e => ⟨e.1, f e.2⟩, by
    have hkeys : (m.entries.map fun e => (⟨e.1, f e.2⟩ : Sigma fun _ : κ => μ)).keys =
        m.entries.keys := by
      simp [List.keys]
    rw [List.NodupKeys, hkeys]
    exact m.nodupKeys⟩

omit [DecidableEq κ] in
@[simp] theorem keys_withValues {μ : Type*} (f : ν → μ) (m : AssocMap κ ν) :
    (withValues f m).keys = m.keys := by
  simp [AList.keys, withValues, List.keys]

@[simp] theorem lookup_withValues {μ : Type*} (f : ν → μ) (m : AssocMap κ ν) (k : κ) :
    (withValues f m).lookup k = (m.lookup k).map f := by
  cases h : m.lookup k with
  | none =>
      rw [AList.lookup_eq_none, AList.mem_keys] at h
      refine AList.lookup_eq_none.mpr ?_
      rw [AList.mem_keys, keys_withValues]
      exact h
  | some v =>
      have hmem := AList.mem_lookup_iff.mp h
      exact AList.mem_lookup_iff.mpr (List.mem_map.mpr ⟨⟨k, v⟩, hmem, rfl⟩)

theorem entries_erase (m : AssocMap κ ν) (k : κ) :
    (m.erase k).entries = m.entries.kerase k := rfl

theorem values_insert (m : AssocMap κ ν) (k : κ) (v : ν) :
    values (m.insert k v) = v :: values (m.erase k) := by
  simp [values, AList.entries_insert, entries_erase]

private theorem kerase_perm {k : κ} {v : ν} {l : List (Sigma fun _ : κ => ν)}
    (hnodup : l.NodupKeys) (hmem : ⟨k, v⟩ ∈ l) :
    l.Perm (⟨k, v⟩ :: l.kerase k) := by
  induction l with
  | nil => simp at hmem
  | cons e rest ih =>
      obtain ⟨k', v'⟩ := e
      by_cases hk : k = k'
      · subst hk
        have hv : v = v' := by
          rcases List.mem_cons.mp hmem with heq | hrest
          · cases heq
            rfl
          · exact absurd (List.mem_map.mpr ⟨_, hrest, rfl⟩)
              (List.nodupKeys_cons.mp hnodup).1
        simp [List.kerase, hv]
      · have hrest : (⟨k, v⟩ : Sigma fun _ : κ => ν) ∈ rest := by
          rcases List.mem_cons.mp hmem with heq | hrest
          · cases heq
            exact absurd rfl hk
          · exact hrest
        have hperm := ih (List.nodupKeys_cons.mp hnodup).2 hrest
        rw [List.kerase_cons_ne (by simpa using hk)]
        exact (hperm.cons _).trans (List.Perm.swap _ _ _)

/-- The value bound to a key, taken out of the list of values. -/
theorem values_perm_erase {m : AssocMap κ ν} {k : κ} {v : ν}
    (h : m.lookup k = some v) : (values m).Perm (v :: values (m.erase k)) := by
  have hperm := kerase_perm m.nodupKeys (AList.mem_lookup_iff.mp h)
  simpa [values, entries_erase] using hperm.map (·.2)

theorem erase_eq_self {m : AssocMap κ ν} {k : κ} (h : m.lookup k = none) :
    m.erase k = m := by
  apply AList.ext
  rw [AList.lookup_eq_none, AList.mem_keys] at h
  exact List.kerase_of_notMem_keys h

theorem of_lookup_insert {m : AssocMap κ ν} {k j : κ} {v w : ν}
    (h : (m.insert k v).lookup j = some w) : (j = k ∧ w = v) ∨ (j ≠ k ∧ m.lookup j = some w) := by
  by_cases hj : j = k
  · subst hj
    rw [AList.lookup_insert] at h
    exact .inl ⟨rfl, (Option.some.inj h).symm⟩
  · rw [AList.lookup_insert_ne hj] at h
    exact .inr ⟨hj, h⟩

theorem of_lookup_erase {m : AssocMap κ ν} {k j : κ} {w : ν}
    (h : (m.erase k).lookup j = some w) : j ≠ k ∧ m.lookup j = some w := by
  by_cases hj : j = k
  · subst hj
    rw [AList.lookup_erase] at h
    cases h
  · rw [AList.lookup_erase_ne hj] at h
    exact ⟨hj, h⟩

/-- `retain`: the entries whose value passes. -/
def keep (q : ν → Bool) (m : AssocMap κ ν) : AssocMap κ ν :=
  ⟨m.entries.filter fun e => q e.2,
    (List.filter_sublist.map Sigma.fst).nodup m.nodupKeys⟩

theorem of_lookup_keep {q : ν → Bool} {m : AssocMap κ ν} {k : κ} {v : ν}
    (h : (keep q m).lookup k = some v) : m.lookup k = some v ∧ q v = true := by
  obtain ⟨hmem, hq⟩ := List.mem_filter.mp (AList.mem_lookup_iff.mp h)
  exact ⟨AList.mem_lookup_iff.mpr hmem, hq⟩

section Fold

variable {β : Type*} (f : β → κ)

theorem lookup_foldl_insert_of_notMem (g : β → ν) (l : List β) (m : AssocMap κ ν) {k : κ}
    (h : k ∉ l.map f) : (l.foldl (fun m b => m.insert (f b) (g b)) m).lookup k = m.lookup k := by
  induction l generalizing m with
  | nil => rfl
  | cons b rest ih =>
      rw [List.map_cons, List.mem_cons, not_or] at h
      rw [List.foldl_cons, ih _ h.2, AList.lookup_insert_ne h.1]

theorem lookup_foldl_insert_of_mem (g : β → ν) {l : List β} (m : AssocMap κ ν) {b : β}
    (hnodup : (l.map f).Nodup) (hb : b ∈ l) :
    (l.foldl (fun m b => m.insert (f b) (g b)) m).lookup (f b) = some (g b) := by
  induction l generalizing m with
  | nil => cases hb
  | cons c rest ih =>
      rw [List.map_cons, List.nodup_cons] at hnodup
      rw [List.foldl_cons]
      rcases List.mem_cons.mp hb with rfl | hb
      · rw [lookup_foldl_insert_of_notMem f g rest _ hnodup.1, AList.lookup_insert]
      · exact ih _ hnodup.2 hb

theorem lookup_foldl_erase (l : List β) (m : AssocMap κ ν) (k : κ) :
    (l.foldl (fun m b => m.erase (f b)) m).lookup k =
      if k ∈ l.map f then none else m.lookup k := by
  induction l generalizing m with
  | nil => simp
  | cons b rest ih =>
      rw [List.foldl_cons, ih]
      by_cases hk : k = f b
      · subst hk
        simp [AList.lookup_erase]
      · simp [AList.lookup_erase_ne hk, hk]

end Fold

end AssocMap

end TimeLake.Library
