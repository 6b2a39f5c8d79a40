import Mathlib.Data.List.Sort
import Mathlib.Data.List.Lattice
import Mathlib.Tactic.Convert

/-!
Last write wins. `lastOf key k l` is the last element of `l` with key `k`: what
a list of writes, oldest first, leaves for `k`. Sorting stably by the key and
keeping the last of each run of equal keys changes no `lastOf` and leaves one
element for each key, and two lists with one element for each key and the same
`lastOf` are permutations of each other.
-/

namespace TimeLake.Library

variable {α κ : Type*}

section Last

variable [DecidableEq κ] {key : α → κ} {k : κ}

def lastOf (key : α → κ) (k : κ) (l : List α) : Option α :=
  (l.filter fun a => key a = k).getLast?

@[simp] theorem lastOf_nil : lastOf key k [] = none := rfl

theorem lastOf_append (xs ys : List α) :
    lastOf key k (xs ++ ys) = (lastOf key k ys).or (lastOf key k xs) := by
  simp [lastOf, List.filter_append, List.getLast?_append]

theorem lastOf_cons (a : α) (l : List α) :
    lastOf key k (a :: l) = (lastOf key k l).or (if key a = k then some a else none) := by
  have hsplit : lastOf key k (a :: l) = (lastOf key k l).or (lastOf key k [a]) :=
    lastOf_append [a] l
  rw [hsplit]
  congr 1
  by_cases ha : key a = k <;> simp [lastOf, ha]

theorem lastOf_mem {l : List α} {a : α} (h : lastOf key k l = some a) : a ∈ l ∧ key a = k := by
  have hmem := List.mem_of_getLast? h
  simpa using hmem

theorem lastOf_eq_none {l : List α} : lastOf key k l = none ↔ ∀ a ∈ l, key a ≠ k := by
  simp [lastOf]

theorem lastOf_filter {l : List α} {p : α → Bool} (h : ∀ a ∈ l, key a = k → p a = true) :
    lastOf key k (l.filter p) = lastOf key k l := by
  rw [lastOf, List.filter_filter, lastOf]
  congr 1
  apply List.filter_congr
  intro a ha
  by_cases hk : key a = k
  · simp [hk, h a ha hk]
  · simp [hk]

/-- With one element for each key the last one is the only one. -/
theorem lastOf_of_mem {l : List α} (hnodup : (l.map key).Nodup) {a : α} (h : a ∈ l) :
    lastOf key (key a) l = some a := by
  induction l with
  | nil => cases h
  | cons b rest ih =>
      rw [List.map_cons, List.nodup_cons] at hnodup
      rw [lastOf_cons]
      rcases List.mem_cons.mp h with rfl | hrest
      · have hnone : lastOf key (key a) rest = none := by
          rw [lastOf_eq_none]
          intro c hc heq
          exact hnodup.1 (List.mem_map.mpr ⟨c, hc, heq⟩)
        rw [hnone, if_pos rfl, Option.none_or]
      · rw [ih hnodup.2 hrest, Option.some_or]

/-- Where equal keys come in the order of their ranks, the last one has the
largest. -/
theorem rank_le_lastOf {rank : α → Nat} {l : List α} {a : α}
    (hordered : l.Pairwise fun b c => key b = key c → rank b ≤ rank c)
    (h : lastOf key k l = some a) : ∀ b ∈ l, key b = k → rank b ≤ rank a := by
  induction l with
  | nil => exact fun b hb => by cases hb
  | cons c rest ih =>
      obtain ⟨hhead, htail⟩ := List.pairwise_cons.mp hordered
      rw [lastOf_cons] at h
      cases hlast : lastOf key k rest with
      | none =>
          rw [hlast, Option.none_or] at h
          rw [lastOf_eq_none] at hlast
          intro b hb hkey
          rcases List.mem_cons.mp hb with rfl | hrest
          · rw [if_pos hkey] at h
            rw [Option.some.inj h]
          · exact absurd hkey (hlast b hrest)
      | some last =>
          rw [hlast, Option.some_or] at h
          obtain rfl := Option.some.inj h
          obtain ⟨hmem, hkeyLast⟩ := lastOf_mem hlast
          intro b hb hkey
          rcases List.mem_cons.mp hb with rfl | hrest
          · exact hhead last hmem (hkey.trans hkeyLast.symm)
          · exact ih htail hlast b hrest hkey

theorem perm_of_lastOf {xs ys : List α} (hx : (xs.map key).Nodup) (hy : (ys.map key).Nodup)
    (h : ∀ k, lastOf key k xs = lastOf key k ys) : xs.Perm ys := by
  refine (List.perm_ext_iff_of_nodup hx.of_map hy.of_map).mpr ?_
  intro a
  constructor
  · intro ha
    exact (lastOf_mem ((h (key a)).symm.trans (lastOf_of_mem hx ha))).1
  · intro ha
    exact (lastOf_mem ((h (key a)).trans (lastOf_of_mem hy ha))).1

end Last

section Sorted

variable [LinearOrder κ] {key : α → κ} {k : κ}

/-- The last of each run of equal keys. -/
def keepLast (key : α → κ) : List α → List α
  | [] => []
  | [a] => [a]
  | a :: b :: rest =>
    if key a = key b then keepLast key (b :: rest) else a :: keepLast key (b :: rest)

/-- Sort stably by key, then keep the last of equal keys. -/
def sortKeepLast (key : α → κ) (l : List α) : List α :=
  keepLast key (l.insertionSort fun a b => key a ≤ key b)

private theorem filter_orderedInsert (a : α) {l : List α}
    (hsorted : l.Pairwise fun b c => key b ≤ key c) :
    (l.orderedInsert (fun b c => key b ≤ key c) a).filter (fun b => key b = k) =
      (a :: l).filter fun b => key b = k := by
  induction l with
  | nil => rfl
  | cons b rest ih =>
      rw [List.orderedInsert_cons]
      split
      · rfl
      · next hlt =>
          have hne : key b < key a := not_le.mp hlt
          rw [List.filter_cons, ih (List.pairwise_cons.mp hsorted).2]
          by_cases ha : key a = k
          · have hb : key b ≠ k := fun heq => absurd hne (by rw [heq, ha]; exact lt_irrefl _)
            simp [ha, hb]
          · simp [List.filter_cons, ha]

/-- The sort is stable. -/
theorem filter_insertionSort (l : List α) :
    (l.insertionSort fun a b => key a ≤ key b).filter (fun a => key a = k) =
      l.filter fun a => key a = k := by
  induction l with
  | nil => rfl
  | cons a rest ih =>
      have : Std.Total fun a b : α => key a ≤ key b := ⟨fun a b => le_total _ _⟩
      have : IsTrans α fun a b => key a ≤ key b := ⟨fun a b c => le_trans⟩
      have hsorted := List.pairwise_insertionSort (fun a b => key a ≤ key b) rest
      rw [List.insertionSort_cons, filter_orderedInsert a hsorted, List.filter_cons, ih,
        List.filter_cons]

theorem mem_of_mem_keepLast {l : List α} {a : α} (h : a ∈ keepLast key l) : a ∈ l := by
  induction l using keepLast.induct key with
  | case1 => exact h
  | case2 => exact h
  | case3 b c rest heq ih =>
      rw [keepLast, if_pos heq] at h
      exact List.mem_cons_of_mem _ (ih h)
  | case4 b c rest hne ih =>
      rw [keepLast, if_neg hne] at h
      rcases List.mem_cons.mp h with rfl | h
      · simp
      · exact List.mem_cons_of_mem _ (ih h)

private theorem lastOf_cons_cons {a b : α} (rest : List α) (heq : key a = key b) :
    lastOf key k (a :: b :: rest) = lastOf key k (b :: rest) := by
  by_cases hb : key b = k
  · simp [lastOf, heq, hb]
  · simp [lastOf, heq, hb]

theorem lastOf_keepLast (l : List α) : lastOf key k (keepLast key l) = lastOf key k l := by
  induction l using keepLast.induct key with
  | case1 => rfl
  | case2 => rfl
  | case3 a b rest heq ih => rw [keepLast, if_pos heq, ih, lastOf_cons_cons rest heq]
  | case4 a b rest hne ih =>
      rw [keepLast, if_neg hne, lastOf_cons, lastOf_cons a, ih]

theorem pairwise_keepLast {l : List α} (hsorted : l.Pairwise fun a b => key a ≤ key b) :
    (keepLast key l).Pairwise fun a b => key a < key b := by
  induction l using keepLast.induct key with
  | case1 => exact List.Pairwise.nil
  | case2 a => exact List.pairwise_singleton _ a
  | case3 a b rest heq ih =>
      rw [keepLast, if_pos heq]
      exact ih (List.pairwise_cons.mp hsorted).2
  | case4 a b rest hne ih =>
      obtain ⟨hle, htail⟩ := List.pairwise_cons.mp hsorted
      rw [keepLast, if_neg hne, List.pairwise_cons]
      refine ⟨?_, ih htail⟩
      intro c hc
      have hab : key a < key b := lt_of_le_of_ne (hle b (by simp)) hne
      rcases List.mem_cons.mp (mem_of_mem_keepLast hc) with rfl | hrest
      · exact hab
      · exact lt_of_lt_of_le hab ((List.pairwise_cons.mp htail).1 c hrest)

private theorem lastOf_sorted (l : List α) :
    lastOf key k (sortKeepLast key l) = lastOf key k l := by
  rw [sortKeepLast, lastOf_keepLast, lastOf, filter_insertionSort, lastOf]

/-- Stated for any way of deciding equality of keys, since the order brings
one of its own. -/
theorem lastOf_sortKeepLast (d : DecidableEq κ) (l : List α) :
    @lastOf α κ d key k (sortKeepLast key l) = @lastOf α κ d key k l := by
  convert @lastOf_sorted α κ _ key k l

theorem nodup_sortKeepLast (l : List α) : ((sortKeepLast key l).map key).Nodup := by
  have : Std.Total fun a b : α => key a ≤ key b := ⟨fun a b => le_total _ _⟩
  have : IsTrans α fun a b => key a ≤ key b := ⟨fun a b c => le_trans⟩
  have hsorted := List.pairwise_insertionSort (fun a b => key a ≤ key b) l
  rw [List.Nodup, List.pairwise_map]
  exact (pairwise_keepLast hsorted).imp fun h => ne_of_lt h

theorem mem_of_mem_sortKeepLast {l : List α} {a : α} (h : a ∈ sortKeepLast key l) : a ∈ l :=
  (List.mem_insertionSort _).mp (mem_of_mem_keepLast h)

theorem subperm_sortKeepLast (l : List α) : (sortKeepLast key l).Subperm l := by
  have hsub : ∀ l : List α, (keepLast key l).Sublist l := by
    intro l
    induction l using keepLast.induct key with
    | case1 => exact List.Sublist.refl _
    | case2 => exact List.Sublist.refl _
    | case3 a b rest heq ih =>
        rw [keepLast, if_pos heq]
        exact ih.cons a
    | case4 a b rest hne ih =>
        rw [keepLast, if_neg hne]
        exact ih.cons_cons a
  exact (hsub _).subperm.trans (List.perm_insertionSort _ _).subperm

end Sorted

end TimeLake.Library
