import TimeLake.Library.AssocMap
import Mathlib.Algebra.BigOperators.Group.List.Basic
import Mathlib.Algebra.GroupWithZero.Nat

/-!
Sums over the values of a finite map, and how one insertion or removal changes
them. A program that keeps a counter beside a table of live things is right when
the counter is such a sum; the three rules say what each change of the table
must do to it. They are stated without subtraction, the old value on the left.
-/

namespace TimeLake.Library.AssocMap

variable {κ ν : Type*}

def total (f : ν → Nat) (m : AssocMap κ ν) : Nat := (m.values.map f).sum

/-- How many of the values pass. -/
def tally (p : ν → Bool) (m : AssocMap κ ν) : Nat := m.total fun v => (p v).toNat

@[simp] theorem total_empty (f : ν → Nat) : total f (∅ : AssocMap κ ν) = 0 := rfl

@[simp] theorem tally_empty (p : ν → Bool) : tally p (∅ : AssocMap κ ν) = 0 := rfl

variable [DecidableEq κ]

theorem total_erase (f : ν → Nat) {m : AssocMap κ ν} {k : κ} {v : ν} (h : m.lookup k = some v) :
    total f m = f v + total f (m.erase k) := by
  have hperm := (values_perm_erase h).map f
  rw [total, hperm.sum_eq, List.map_cons, List.sum_cons]
  rfl

theorem total_insert (f : ν → Nat) {m : AssocMap κ ν} {k : κ} {w : ν} (h : m.lookup k = none) :
    total f (m.insert k w) = f w + total f m := by
  rw [total, values_insert, List.map_cons, List.sum_cons, erase_eq_self h]
  rfl

theorem total_replace (f : ν → Nat) {m : AssocMap κ ν} {k : κ} {v w : ν}
    (h : m.lookup k = some v) : f v + total f (m.insert k w) = f w + total f m := by
  have hold := total_erase f h
  have hnew : total f (m.insert k w) = f w + total f (m.erase k) := by
    rw [total, values_insert, List.map_cons, List.sum_cons]
    rfl
  omega

theorem tally_erase (p : ν → Bool) {m : AssocMap κ ν} {k : κ} {v : ν} (h : m.lookup k = some v) :
    tally p m = (p v).toNat + tally p (m.erase k) :=
  total_erase (fun v => (p v).toNat) h

theorem tally_insert (p : ν → Bool) {m : AssocMap κ ν} {k : κ} {w : ν} (h : m.lookup k = none) :
    tally p (m.insert k w) = (p w).toNat + tally p m :=
  total_insert (fun v => (p v).toNat) h

theorem tally_replace (p : ν → Bool) {m : AssocMap κ ν} {k : κ} {v w : ν}
    (h : m.lookup k = some v) :
    (p v).toNat + tally p (m.insert k w) = (p w).toNat + tally p m :=
  total_replace (fun v => (p v).toNat) h

theorem le_total (f : ν → Nat) {m : AssocMap κ ν} {k : κ} {v : ν} (h : m.lookup k = some v) :
    f v ≤ total f m := by
  rw [total_erase f h]
  exact Nat.le_add_right _ _

/-- What the values have to show, where they show anything. -/
def gather {γ : Type*} (f : ν → Option γ) (m : AssocMap κ ν) : List γ := m.values.filterMap f

theorem filterMap_cons_toList {γ : Type*} (f : ν → Option γ) (v : ν) (l : List ν) :
    (v :: l).filterMap f = (f v).toList ++ l.filterMap f := by
  cases h : f v with
  | none => rw [List.filterMap_cons_none h, Option.toList_none, List.nil_append]
  | some c => rw [List.filterMap_cons_some h, Option.toList_some, List.singleton_append]

theorem gather_erase {γ : Type*} (f : ν → Option γ) {m : AssocMap κ ν} {k : κ} {v : ν}
    (h : m.lookup k = some v) : (gather f m).Perm ((f v).toList ++ gather f (m.erase k)) := by
  have hperm := (values_perm_erase h).filterMap f
  rwa [filterMap_cons_toList] at hperm

theorem gather_insert {γ : Type*} (f : ν → Option γ) (m : AssocMap κ ν) (k : κ) (w : ν) :
    gather f (m.insert k w) = (f w).toList ++ gather f (m.erase k) := by
  rw [gather, values_insert, filterMap_cons_toList]
  rfl

/-- A value that is replaced by one that shows the same. -/
theorem gather_replace {γ : Type*} (f : ν → Option γ) {m : AssocMap κ ν} {k : κ} {v w : ν}
    (h : m.lookup k = some v) (hsame : f w = f v) :
    (gather f (m.insert k w)).Perm (gather f m) := by
  rw [gather_insert, hsame]
  exact (gather_erase f h).symm

theorem gather_fresh {γ : Type*} (f : ν → Option γ) {m : AssocMap κ ν} {k : κ} {w : ν}
    (h : m.lookup k = none) : gather f (m.insert k w) = (f w).toList ++ gather f m := by
  rw [gather_insert, erase_eq_self h]

theorem mem_gather {γ : Type*} {f : ν → Option γ} {m : AssocMap κ ν} {c : γ} :
    c ∈ gather f m ↔ ∃ k v, m.lookup k = some v ∧ f v = some c := by
  rw [gather, List.mem_filterMap]
  constructor
  · rintro ⟨v, hv, hc⟩
    obtain ⟨k, hk⟩ := mem_values.mp hv
    exact ⟨k, v, hk, hc⟩
  · rintro ⟨k, v, hk, hc⟩
    exact ⟨v, mem_values.mpr ⟨k, hk⟩, hc⟩

/-- What is shown under different keys is different, if it shows its key. -/
theorem nodup_gather {γ : Type*} {f : ν → Option γ} {g : γ → κ} {m : AssocMap κ ν}
    (h : ∀ k v c, m.lookup k = some v → f v = some c → g c = k) : ((gather f m).map g).Nodup := by
  have hsub : ∀ entries : List (Sigma fun _ : κ => ν), (∀ e ∈ entries, e ∈ m.entries) →
      (((entries.map (·.2)).filterMap f).map g).Sublist entries.keys := by
    intro entries
    induction entries with
    | nil =>
        intro _
        exact .slnil
    | cons e rest ih =>
        intro hmem
        have hrest := ih fun e' he' => hmem e' (List.mem_cons_of_mem _ he')
        have hlookup := AList.mem_lookup_iff.mpr (hmem e List.mem_cons_self)
        rw [List.map_cons, List.keys_cons]
        cases hc : f e.2 with
        | none =>
            rw [List.filterMap_cons_none hc]
            exact .cons _ hrest
        | some c =>
            rw [List.filterMap_cons_some hc, List.map_cons, h _ _ _ hlookup hc]
            exact .cons_cons _ hrest
  exact (hsub m.entries fun _ he => he).nodup m.nodupKeys

theorem eq_empty {m : AssocMap κ ν} (h : ∀ k, m.lookup k = none) : m = ∅ := by
  apply AList.ext
  cases hentries : m.entries with
  | nil => rfl
  | cons e rest =>
      have hmem : e ∈ m.entries := by
        rw [hentries]
        exact List.mem_cons_self
      have hfound := AList.mem_lookup_iff.mpr hmem
      rw [h] at hfound
      cases hfound

/-- Where something is counted, there is a value that passes. -/
theorem exists_of_tally_pos (p : ν → Bool) {m : AssocMap κ ν} (h : 0 < tally p m) :
    ∃ k v, m.lookup k = some v ∧ p v = true := by
  by_contra hnone
  push Not at hnone
  have hzero : ∀ v ∈ m.values, (p v).toNat = 0 := by
    intro v hv
    obtain ⟨k, hk⟩ := mem_values.mp hv
    rw [Bool.toNat_eq_zero]
    exact Bool.eq_false_iff.mpr (hnone k v hk)
  have hsum : tally p m = 0 := by
    apply List.sum_eq_zero
    intro n hn
    obtain ⟨v, hv, rfl⟩ := List.mem_map.mp hn
    exact hzero v hv
  omega

end TimeLake.Library.AssocMap
