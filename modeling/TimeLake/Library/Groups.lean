import TimeLake.Library.LastWins
import TimeLake.Library.Pairs
import Mathlib.Data.Prod.Lex

/-!
Sorting positions by what stands there, keeping the last position of each run of
equal ones, and grouping what is left under keys in increasing order. The positions
kept are those with nothing equal behind them, whatever the order of the keys is,
and each of them is in the one group of its key.
-/

namespace TimeLake.Library

variable {α β κ : Type*}

section Runs

variable [LinearOrder κ] {key : α → κ}

/-- One step of the loop that keeps the last of each run: `a` takes the place of the
element before it when their keys are equal. -/
def replaceLast (key : α → κ) (kept : List α) (a : α) : List α :=
  match kept.getLast? with
  | some prev => if key prev = key a then kept.dropLast ++ [a] else kept ++ [a]
  | none => [a]

theorem replaceLast_concat (kept : List α) (prev a : α) :
    replaceLast key (kept ++ [prev]) a =
      if key prev = key a then kept ++ [a] else kept ++ [prev] ++ [a] := by
  simp only [replaceLast, List.getLast?_concat, List.dropLast_concat]

private theorem foldl_replaceLast_concat (l kept : List α) (prev : α) :
    l.foldl (replaceLast key) (kept ++ [prev]) = kept ++ keepLast key (prev :: l) := by
  induction l generalizing kept prev with
  | nil => rfl
  | cons a rest ih =>
      rw [List.foldl_cons, replaceLast_concat, keepLast]
      split
      · exact ih kept a
      · rw [ih (kept ++ [prev]) a, List.append_assoc, List.singleton_append]

theorem foldl_replaceLast (l : List α) : l.foldl (replaceLast key) [] = keepLast key l := by
  cases l with
  | nil => rfl
  | cons a rest => exact foldl_replaceLast_concat rest [] a

/-- What is kept of a sorted list is the last one of each key. -/
theorem mem_keepLast {l : List α} (hsorted : l.Pairwise fun a b => key a ≤ key b) {a : α} :
    a ∈ keepLast key l ↔ lastOf key (key a) l = some a := by
  have hnodup : ((keepLast key l).map key).Nodup := by
    rw [List.Nodup, List.pairwise_map]
    exact (pairwise_keepLast hsorted).imp fun h => ne_of_lt h
  rw [← lastOf_keepLast]
  exact ⟨fun h => lastOf_of_mem hnodup h, fun h => (lastOf_mem h).1⟩

end Runs

section Positions

variable [LinearOrder κ] (row : Nat → κ) (n : Nat)

/-- The positions below `n` sorted by what stands there, ties by the position. -/
def sortPositions : List Nat :=
  (List.range n).insertionSort fun a b => toLex (row a, a) ≤ toLex (row b, b)

variable {row n}

theorem mem_sortPositions {i : Nat} : i ∈ sortPositions row n ↔ i < n := by
  rw [sortPositions, List.mem_insertionSort, List.mem_range]

theorem pairwise_sortPositions :
    (sortPositions row n).Pairwise fun a b => toLex (row a, a) ≤ toLex (row b, b) := by
  have : Std.Total fun a b => toLex (row a, a) ≤ toLex (row b, b) := ⟨fun a b => le_total _ _⟩
  have : IsTrans Nat fun a b => toLex (row a, a) ≤ toLex (row b, b) :=
    ⟨fun a b c => le_trans⟩
  exact List.pairwise_insertionSort _ _

theorem sorted_sortPositions : (sortPositions row n).Pairwise fun a b => row a ≤ row b := by
  refine pairwise_sortPositions.imp ?_
  intro a b h
  rcases Prod.Lex.toLex_le_toLex.mp h with hlt | ⟨heq, _⟩
  · exact hlt.le
  · exact heq.le

/-- The positions kept are those with nothing equal behind them. -/
theorem mem_keepLast_sortPositions {i : Nat} :
    i ∈ keepLast row (sortPositions row n) ↔ i < n ∧ ∀ j, i < j → j < n → row j ≠ row i := by
  have hranked : (sortPositions row n).Pairwise fun a b => row a = row b → id a ≤ id b := by
    refine pairwise_sortPositions.imp ?_
    intro a b h heq
    rcases Prod.Lex.toLex_le_toLex.mp h with hlt | ⟨_, hle⟩
    · exact absurd heq (ne_of_lt hlt)
    · exact hle
  rw [mem_keepLast sorted_sortPositions]
  constructor
  · intro hlast
    refine ⟨mem_sortPositions.mp (lastOf_mem hlast).1, ?_⟩
    intro j hij hj heq
    have hle := rank_le_lastOf hranked hlast j (mem_sortPositions.mpr hj) heq
    exact absurd hle (Nat.not_le.mpr hij)
  · rintro ⟨hi, hnone⟩
    cases hlast : lastOf row (row i) (sortPositions row n) with
    | none => exact absurd rfl (lastOf_eq_none.mp hlast i (mem_sortPositions.mpr hi))
    | some a =>
        obtain ⟨hmem, heq⟩ := lastOf_mem hlast
        have hle : i ≤ a := rank_le_lastOf hranked hlast i (mem_sortPositions.mpr hi) rfl
        rcases Nat.lt_or_eq_of_le hle with hlt | rfl
        · exact absurd heq (hnone a hlt (mem_sortPositions.mp hmem))
        · rfl

theorem nodup_keepLast_sortPositions : (keepLast row (sortPositions row n)).Nodup := by
  refine (pairwise_keepLast sorted_sortPositions).imp ?_
  intro a b hlt heq
  exact absurd (congrArg row heq) (ne_of_lt hlt)

end Positions

section Groups

variable [LinearOrder κ] {key : α → κ} {val : α → β}

/-- `map.entry(k).or_default().push(x)` on a map kept in the order of its keys. -/
def pushTo (m : List (κ × List β)) (k : κ) (x : β) : List (κ × List β) :=
  insertPair k ((m.lookup k).getD [] ++ [x]) m

def groupInto (key : α → κ) (val : α → β) (l : List α) : List (κ × List β) :=
  l.foldl (fun m a => pushTo m (key a) (val a)) []

theorem groupInto_concat (l : List α) (a : α) :
    groupInto key val (l ++ [a]) = pushTo (groupInto key val l) (key a) (val a) := by
  rw [groupInto, List.foldl_append, List.foldl_cons, List.foldl_nil, groupInto]

theorem Increasing.groupInto (l : List α) : Increasing (groupInto key val l) := by
  induction l using List.reverseRecOn with
  | nil => exact List.Pairwise.nil
  | append_singleton l a ih =>
      rw [groupInto_concat]
      exact ih.insertPair _ _

/-- The group of a key is what has this key, in order. -/
theorem lookup_groupInto (l : List α) (k : κ) :
    (groupInto key val l).lookup k =
      if (l.filter fun a => key a = k) = [] then none
      else some ((l.filter fun a => key a = k).map val) := by
  induction l using List.reverseRecOn with
  | nil => rfl
  | append_singleton l a ih =>
      rw [groupInto_concat, pushTo, lookup_insertPair, List.filter_append]
      by_cases hk : key a = k
      · subst hk
        rw [if_pos rfl, ih]
        by_cases hnil : (l.filter fun b => key b = key a) = []
        · simp [hnil]
        · simp [hnil]
      · rw [if_neg (Ne.symm hk), ih]
        simp [hk]

theorem mem_groupInto {l : List α} {k : κ} {xs : List β} :
    (k, xs) ∈ groupInto key val l ↔ xs ≠ [] ∧ xs = (l.filter fun a => key a = k).map val := by
  have hnodup : ((groupInto key val l).map Prod.fst).Nodup := by
    rw [List.Nodup, List.pairwise_map]
    exact (Increasing.groupInto l).imp fun h => ne_of_lt h
  rw [← lookup_eq_some_of_nodup hnodup, lookup_groupInto]
  by_cases hnil : (l.filter fun a => key a = k) = []
  · rw [if_pos hnil, hnil]
    simp
  · rw [if_neg hnil, Option.some.injEq]
    constructor
    · rintro rfl
      exact ⟨by simpa using hnil, rfl⟩
    · exact fun h => h.2.symm

theorem exists_of_mem_group {l : List α} {k : κ} {xs : List β} (h : (k, xs) ∈ groupInto key val l)
    {x : β} (hx : x ∈ xs) : ∃ a ∈ l, key a = k ∧ val a = x := by
  rw [(mem_groupInto.mp h).2] at hx
  obtain ⟨a, ha, rfl⟩ := List.mem_map.mp hx
  rw [List.mem_filter, decide_eq_true_eq] at ha
  exact ⟨a, ha.1, ha.2, rfl⟩

theorem exists_group {l : List α} {a : α} (ha : a ∈ l) :
    ∃ xs, (key a, xs) ∈ groupInto key val l ∧ val a ∈ xs := by
  have hin : a ∈ l.filter fun b => key b = key a := by simpa using ha
  have hmem : val a ∈ (l.filter fun b => key b = key a).map val := List.mem_map_of_mem hin
  exact ⟨_, mem_groupInto.mpr ⟨List.ne_nil_of_mem hmem, rfl⟩, hmem⟩

theorem map_insertPair {γ : Type*} (g : β → γ) (k : κ) (v : β) (m : List (κ × β)) :
    (insertPair k v m).map (fun p => (p.1, g p.2)) =
      insertPair k (g v) (m.map fun p => (p.1, g p.2)) := by
  induction m with
  | nil => rfl
  | cons q rest ih =>
      simp only [insertPair, List.map_cons]
      split
      · rfl
      · split
        · rfl
        · rw [List.map_cons, ih]

/-- `map.entry(k).or_default().insert(i, x)` on maps kept in the order of their keys. -/
def insertInto {ι : Type*} [LinearOrder ι] (m : List (κ × List (ι × β))) (k : κ) (i : ι) (x : β) :
    List (κ × List (ι × β)) :=
  insertPair k (insertPair i x ((m.lookup k).getD [])) m

/-- Inserting one by one makes the groups, and of each group a map. -/
theorem foldl_insertInto {ι γ : Type*} [LinearOrder ι] {val : α → ι × γ} (l : List α) :
    l.foldl (fun m a => insertInto m (key a) (val a).1 (val a).2) [] =
      (groupInto key val l).map fun p => (p.1, collect p.2) := by
  induction l using List.reverseRecOn with
  | nil => rfl
  | append_singleton l a ih =>
      rw [List.foldl_append, List.foldl_cons, List.foldl_nil, ih, groupInto_concat, pushTo,
        map_insertPair, insertInto, lookup_map_snd fun _ (xs : List (ι × γ)) => collect xs]
      cases (groupInto key val l).lookup (key a) with
      | none => rfl
      | some xs =>
          simp only [Option.map_some, Option.getD_some, collect, List.foldl_append,
            List.foldl_cons, List.foldl_nil]

/-- Changing what is stored of each element changes the groups alone. -/
theorem map_groupInto {γ : Type*} (g : β → γ) (l : List α) :
    (groupInto key val l).map (fun p => (p.1, p.2.map g)) =
        groupInto key (fun a => g (val a)) l := by
  induction l using List.reverseRecOn with
  | nil => rfl
  | append_singleton l a ih =>
      rw [groupInto_concat, groupInto_concat, pushTo, pushTo, map_insertPair, ih, ← ih,
        lookup_map_snd fun _ (xs : List β) => xs.map g]
      cases (groupInto key val l).lookup (key a) <;> simp

theorem groupInto_congr {val' : α → β} {l : List α} (h : ∀ a ∈ l, val a = val' a) :
    groupInto key val l = groupInto key val' l := by
  induction l using List.reverseRecOn with
  | nil => rfl
  | append_singleton l a ih =>
      rw [groupInto_concat, groupInto_concat, ih fun x hx => h x (List.mem_append_left _ hx),
        h a (by simp)]

theorem mem_flatMap_groupInto {l : List α} {x : β} :
    x ∈ (groupInto key val l).flatMap Prod.snd ↔ ∃ a ∈ l, val a = x := by
  constructor
  · intro h
    obtain ⟨⟨k, xs⟩, hgroup, hx⟩ := List.mem_flatMap.mp h
    obtain ⟨a, ha, _, hval⟩ := exists_of_mem_group hgroup hx
    exact ⟨a, ha, hval⟩
  · rintro ⟨a, ha, rfl⟩
    obtain ⟨xs, hgroup, hmem⟩ := @exists_group _ _ _ _ key val _ _ ha
    exact List.mem_flatMap.mpr ⟨_, hgroup, hmem⟩

/-- Nothing is in two groups. -/
theorem nodup_flatMap_groupInto {l : List α} (h : (l.map val).Nodup) :
    ((groupInto key val l).flatMap Prod.snd).Nodup := by
  have hinj := List.inj_on_of_nodup_map h
  rw [List.nodup_flatMap]
  refine ⟨?_, ?_⟩
  · rintro ⟨k, xs⟩ hgroup
    obtain ⟨_, rfl⟩ := mem_groupInto.mp hgroup
    exact h.sublist (List.filter_sublist.map val)
  · refine (@Increasing.groupInto α β κ _ key val l).imp_of_mem ?_
    rintro ⟨k, xs⟩ ⟨k', xs'⟩ hgroup hgroup' hlt
    obtain ⟨_, rfl⟩ := mem_groupInto.mp hgroup
    obtain ⟨_, rfl⟩ := mem_groupInto.mp hgroup'
    intro x hx hx'
    obtain ⟨a, ha, rfl⟩ := List.mem_map.mp hx
    obtain ⟨a', ha', heq⟩ := List.mem_map.mp hx'
    obtain ⟨ha, hk⟩ := List.mem_filter.mp ha
    obtain ⟨ha', hk'⟩ := List.mem_filter.mp ha'
    obtain rfl := hinj ha' ha heq
    simp only [decide_eq_true_eq] at hk hk'
    exact ne_of_lt hlt (hk.symm.trans hk')

end Groups

end TimeLake.Library
