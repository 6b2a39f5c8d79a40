import Mathlib.Data.List.Sort
import Mathlib.Data.List.Induction
import Mathlib.Order.Lattice

/-!
Finite maps as lists of pairs. `upsert` keeps the order in which keys first
came, the order a vector of names beside a hash map has. `valuesAt` is the list of
the values of one key where keys repeat. `collect` files a list of pairs by increasing key,
the last value given for a key wins, and two lists with increasing keys and
the same `lookup` are equal.
-/

namespace TimeLake.Library

variable {κ α : Type*}

theorem lookup_cons_eq_ite [DecidableEq κ] (p : κ × α) (m : List (κ × α)) (k : κ) :
    (p :: m).lookup k = if k = p.1 then some p.2 else m.lookup k := by
  obtain ⟨j, w⟩ := p
  by_cases hk : k = j
  · simp [hk]
  · have hne : (k == j) = false := by simpa using hk
    simp [List.lookup_cons, hne, hk]

theorem mem_of_lookup [DecidableEq κ] {m : List (κ × α)} {k : κ} {v : α}
    (h : m.lookup k = some v) : (k, v) ∈ m := by
  obtain ⟨before, after, rfl, _⟩ := List.lookup_eq_some_iff.mp h
  simp

section Upsert

variable [DecidableEq κ]

/-- Replace the value of a key, or add the key at the end. -/
def upsert (k : κ) (f : Option α → α) : List (κ × α) → List (κ × α)
  | [] => [(k, f none)]
  | (j, w) :: rest => if k = j then (j, f (some w)) :: rest else (j, w) :: upsert k f rest

theorem lookup_upsert (k : κ) (f : Option α → α) (m : List (κ × α)) (j : κ) :
    (upsert k f m).lookup j = if j = k then some (f (m.lookup k)) else m.lookup j := by
  induction m with
  | nil =>
      rw [upsert, lookup_cons_eq_ite]
      rfl
  | cons p rest ih =>
      obtain ⟨i, w⟩ := p
      simp only [upsert]
      split
      · next heq =>
          subst heq
          simp only [lookup_cons_eq_ite, if_true]
          split <;> rfl
      · next hne =>
          simp only [lookup_cons_eq_ite, ih, if_neg hne]
          by_cases hj : j = i
          · subst hj
            simp [Ne.symm hne]
          · simp [hj]

theorem lookup_map_snd {β : Type*} (g : κ → α → β) (m : List (κ × α)) (k : κ) :
    (m.map fun p => (p.1, g p.1 p.2)).lookup k = (m.lookup k).map (g k) := by
  induction m with
  | nil => rfl
  | cons p rest ih =>
      rw [List.map_cons, lookup_cons_eq_ite, lookup_cons_eq_ite, ih]
      split
      · next h => rw [h, Option.map_some]
      · rfl

theorem lookup_filter_fst (q : κ → Bool) (m : List (κ × α)) (k : κ) :
    (m.filter fun p => q p.1).lookup k = if q k then m.lookup k else none := by
  induction m with
  | nil => simp
  | cons p rest ih =>
      rw [List.filter_cons]
      by_cases hq : q p.1
      · rw [if_pos hq, lookup_cons_eq_ite, lookup_cons_eq_ite, ih]
        by_cases hk : k = p.1
        · rw [if_pos hk, if_pos hk, hk, if_pos hq]
        · rw [if_neg hk, if_neg hk]
      · rw [if_neg hq, ih, lookup_cons_eq_ite]
        by_cases hk : k = p.1
        · rw [hk, if_neg hq, if_neg hq]
        · rw [if_neg hk]

theorem upsert_of_none {k : κ} {f : Option α → α} {m : List (κ × α)} (h : m.lookup k = none) :
    upsert k f m = m ++ [(k, f none)] := by
  induction m with
  | nil => rfl
  | cons p rest ih =>
      obtain ⟨i, w⟩ := p
      rw [lookup_cons_eq_ite] at h
      split at h
      · cases h
      · next hne => rw [upsert, if_neg hne, ih h, List.cons_append]

theorem upsert_self {k : κ} {v : α} {m : List (κ × α)} (h : m.lookup k = some v) :
    upsert k (fun _ => v) m = m := by
  induction m with
  | nil => cases h
  | cons p rest ih =>
      obtain ⟨i, w⟩ := p
      rw [lookup_cons_eq_ite] at h
      split at h
      · next heq =>
          obtain rfl := Option.some.inj h
          rw [upsert, if_pos heq]
      · next hne => rw [upsert, if_neg hne, ih h]

theorem map_upsert {β : Type*} (g : α → β) (k : κ) (v : α) (m : List (κ × α)) :
    (upsert k (fun _ => v) m).map (fun p => (p.1, g p.2)) =
      upsert k (fun _ => g v) (m.map fun p => (p.1, g p.2)) := by
  induction m with
  | nil => rfl
  | cons p rest ih =>
      simp only [upsert, List.map_cons]
      split
      · rfl
      · rw [List.map_cons, ih]

/-- Results that carry the key they were made for, one for each key. -/
theorem filter_filterMap_key {β : Type*} {keys : List κ} (hnodup : keys.Nodup)
    {f : κ → Option β} {key : β → κ} (hkey : ∀ k y, f k = some y → key y = k) (k : κ) :
    (keys.filterMap f).filter (fun y => key y = k) = if k ∈ keys then (f k).toList else [] := by
  induction keys with
  | nil => rfl
  | cons j rest ih =>
      obtain ⟨hout, htail⟩ := List.nodup_cons.mp hnodup
      have hrest := ih htail
      cases hj : f j with
      | none =>
          rw [List.filterMap_cons_none hj, hrest]
          by_cases hk : k = j
          · subst hk
            simp [hout, hj]
          · simp [hk]
      | some y =>
          rw [List.filterMap_cons_some hj, List.filter_cons, hrest, hkey j y hj]
          by_cases hk : k = j
          · subst hk
            simp [hout, hj]
          · simp [hk, Ne.symm hk]

/-- In the place of the first entry that is the `same`, else at the end. -/
def putFirst (same : α → Bool) (x : α) : List α → List α
  | [] => [x]
  | y :: rest => if same y then x :: rest else y :: putFirst same x rest

theorem mem_putFirst {same : α → Bool} {x z : α} {l : List α} (h : z ∈ putFirst same x l) :
    z = x ∨ z ∈ l := by
  induction l with
  | nil =>
      left
      simpa [putFirst] using h
  | cons y rest ih =>
      simp only [putFirst] at h
      split at h
      · rcases List.mem_cons.mp h with rfl | hrest
        · exact .inl rfl
        · exact .inr (List.mem_cons_of_mem y hrest)
      · rcases List.mem_cons.mp h with rfl | hrest
        · exact .inr List.mem_cons_self
        · rcases ih hrest with rfl | hmem
          · exact .inl rfl
          · exact .inr (List.mem_cons_of_mem y hmem)

/-- Looking for what is the `same` as the entry put finds that entry; looking
for anything else is not affected. -/
theorem find?_putFirst {same pred : α → Bool} {x : α} (hother : ∀ y, same y → pred y = pred x)
    (hsame : pred x → ∀ y, pred y → same y) (l : List α) :
    (putFirst same x l).find? pred = if pred x then some x else l.find? pred := by
  induction l with
  | nil =>
      rw [putFirst, List.find?_cons, List.find?_nil]
      cases pred x <;> rfl
  | cons y rest ih =>
      simp only [putFirst]
      split
      · next hy =>
          rw [List.find?_cons, List.find?_cons, hother y hy]
          cases pred x <;> rfl
      · next hy =>
          rw [List.find?_cons, List.find?_cons, ih]
          cases hpred : pred y with
          | false => rfl
          | true =>
              have hx : pred x = false := by
                by_contra hx
                exact hy (hsame (by simpa using hx) y hpred)
              simp [hx]

/-- A name at the end of the others, unless it is there. -/
def addName (names : List κ) (k : κ) : List κ := if k ∈ names then names else names ++ [k]

theorem mem_addName {names : List κ} {k j : κ} : j ∈ addName names k ↔ j = k ∨ j ∈ names := by
  unfold addName
  split
  · next h =>
      constructor
      · exact .inr
      · rintro (rfl | hj)
        · exact h
        · exact hj
  · rw [List.mem_append, List.mem_singleton, or_comm]

theorem keys_upsert (k : κ) (f : Option α → α) (m : List (κ × α)) :
    (upsert k f m).map Prod.fst = addName (m.map Prod.fst) k := by
  induction m with
  | nil => rfl
  | cons p rest ih =>
      obtain ⟨i, w⟩ := p
      simp only [upsert]
      split
      · next heq => simp [heq, addName]
      · next hne =>
          rw [List.map_cons, ih, addName, addName, List.map_cons]
          by_cases hmem : k ∈ rest.map Prod.fst
          · rw [if_pos hmem, if_pos (List.mem_cons_of_mem _ hmem)]
          · rw [if_neg hmem, if_neg (by simpa [hne] using hmem), List.cons_append]

theorem mem_upsert {k : κ} {f : Option α → α} {m : List (κ × α)} {p : κ × α}
    (h : p ∈ upsert k f m) : p ∈ m ∨ ∃ c, p.2 = f c := by
  induction m with
  | nil =>
      rw [upsert, List.mem_singleton] at h
      exact .inr ⟨none, by rw [h]⟩
  | cons q rest ih =>
      obtain ⟨i, w⟩ := q
      simp only [upsert] at h
      split at h
      · rcases List.mem_cons.mp h with h | h
        · exact .inr ⟨some w, by rw [h]⟩
        · exact .inl (List.mem_cons_of_mem _ h)
      · rcases List.mem_cons.mp h with h | h
        · exact .inl (h ▸ List.mem_cons_self)
        · exact (ih h).imp_left (List.mem_cons_of_mem _)

theorem nodup_keys_upsert {k : κ} {f : Option α → α} {m : List (κ × α)}
    (h : (m.map Prod.fst).Nodup) : ((upsert k f m).map Prod.fst).Nodup := by
  induction m with
  | nil => exact List.nodup_singleton k
  | cons p rest ih =>
      obtain ⟨i, w⟩ := p
      obtain ⟨hout, hrest⟩ := List.nodup_cons.mp h
      simp only [upsert]
      split
      · exact List.nodup_cons.mpr ⟨hout, hrest⟩
      · next hne =>
          refine List.nodup_cons.mpr ⟨?_, ih hrest⟩
          rw [keys_upsert, mem_addName, not_or]
          exact ⟨Ne.symm hne, hout⟩

end Upsert

section Nodup

theorem nodup_keys_filterMap_snd {β : Type*} (g : α → Option β) {m : List (κ × α)}
    (h : (m.map Prod.fst).Nodup) :
    ((m.filterMap fun p => (g p.2).map (p.1, ·)).map Prod.fst).Nodup := by
  refine h.sublist ?_
  clear h
  induction m with
  | nil => exact List.Sublist.refl _
  | cons p rest ih =>
      rw [List.filterMap_cons]
      cases g p.2 with
      | none => exact ih.cons _
      | some w => exact ih.cons_cons _

variable [DecidableEq κ]

theorem lookup_of_notMem_keys {m : List (κ × α)} {k : κ} (h : k ∉ m.map Prod.fst) :
    m.lookup k = none := by
  rw [List.lookup_eq_none_iff]
  intro p hp
  simpa using fun heq => h (List.mem_map.mpr ⟨p, hp, heq.symm⟩)

theorem lookup_filterMap_snd {β : Type*} (g : α → Option β) {m : List (κ × α)}
    (h : (m.map Prod.fst).Nodup) (k : κ) :
    (m.filterMap fun p => (g p.2).map (p.1, ·)).lookup k = (m.lookup k).bind g := by
  induction m with
  | nil => rfl
  | cons p rest ih =>
      obtain ⟨hout, hrest⟩ := List.nodup_cons.mp h
      rw [lookup_cons_eq_ite]
      by_cases hk : k = p.1
      · subst hk
        cases hg : g p.2 with
        | none => simp [hg, ih hrest, lookup_of_notMem_keys hout]
        | some w => simp [hg]
      · rw [if_neg hk, ← ih hrest, List.filterMap_cons]
        cases g p.2 with
        | none => rfl
        | some w => simp [lookup_cons_eq_ite, hk]

theorem lookup_reverse {m : List (κ × α)} (h : (m.map Prod.fst).Nodup) (k : κ) :
    m.reverse.lookup k = m.lookup k := by
  induction m with
  | nil => rfl
  | cons p rest ih =>
      obtain ⟨hout, hrest⟩ := List.nodup_cons.mp h
      rw [List.reverse_cons, List.lookup_append, ih hrest, lookup_cons_eq_ite, lookup_cons_eq_ite]
      by_cases hk : k = p.1
      · subst hk
        simp [lookup_of_notMem_keys hout]
      · simp [hk]

theorem lookup_eq_some_of_nodup {m : List (κ × α)} (h : (m.map Prod.fst).Nodup) {k : κ} {v : α} :
    m.lookup k = some v ↔ (k, v) ∈ m := by
  refine ⟨mem_of_lookup, fun hmem => ?_⟩
  induction m with
  | nil => cases hmem
  | cons p rest ih =>
      obtain ⟨hout, hrest⟩ := List.nodup_cons.mp h
      rw [lookup_cons_eq_ite]
      rcases List.mem_cons.mp hmem with rfl | hmem
      · rw [if_pos rfl]
      · rw [if_neg fun heq => hout (List.mem_map.mpr ⟨_, hmem, heq⟩), ih hrest hmem]

end Nodup

section Values

variable [DecidableEq κ]

/-- The values of one key, in order. -/
def valuesAt (l : List (κ × α)) (k : κ) : List α := (l.filter fun p => p.1 = k).map Prod.snd

theorem valuesAt_append (xs ys : List (κ × α)) (k : κ) :
    valuesAt (xs ++ ys) k = valuesAt xs k ++ valuesAt ys k := by
  simp [valuesAt]

theorem valuesAt_cons (p : κ × α) (l : List (κ × α)) (k : κ) :
    valuesAt (p :: l) k = if p.1 = k then p.2 :: valuesAt l k else valuesAt l k := by
  unfold valuesAt
  by_cases h : p.1 = k <;> simp [h]

theorem length_eq_of_valuesAt [DecidableEq α] {xs ys : List (κ × α)}
    (h : ∀ k, valuesAt xs k = valuesAt ys k) : xs.length = ys.length := by
  have hcount : ∀ (l : List (κ × α)) (p : κ × α), l.count p = (valuesAt l p.1).count p.2 := by
    intro l p
    induction l with
    | nil => rfl
    | cons q rest ih =>
        rw [valuesAt_cons, List.count_cons, ih]
        by_cases hk : q.1 = p.1
        · rw [if_pos hk, List.count_cons]
          congr 1
          simp [Prod.ext_iff, hk]
        · have hne : (q == p) = false := by simpa [Prod.ext_iff] using fun heq => absurd heq hk
          simp [hk, hne]
  have hperm : xs.Perm ys := by
    rw [List.perm_iff_count]
    intro p
    rw [hcount, hcount, h]
  exact hperm.length_eq

/-- Lists with the same keys in the same order and the same values for each key
are equal. -/
theorem eq_of_valuesAt {xs ys : List (κ × α)} (hkeys : xs.map Prod.fst = ys.map Prod.fst)
    (h : ∀ k, valuesAt xs k = valuesAt ys k) : xs = ys := by
  induction xs generalizing ys with
  | nil =>
      cases ys with
      | nil => rfl
      | cons _ _ => simp at hkeys
  | cons p rest ih =>
      cases ys with
      | nil => simp at hkeys
      | cons q rest' =>
          rw [List.map_cons, List.map_cons, List.cons.injEq] at hkeys
          obtain ⟨hhead, htail⟩ := hkeys
          have hk := h p.1
          rw [valuesAt_cons, valuesAt_cons, if_pos rfl, if_pos hhead.symm, List.cons.injEq] at hk
          have hrest : ∀ k, valuesAt rest k = valuesAt rest' k := by
            intro k
            by_cases heq : p.1 = k
            · subst heq
              exact hk.2
            · have := h k
              rwa [valuesAt_cons, valuesAt_cons, if_neg heq, if_neg (hhead ▸ heq)] at this
          rw [ih htail hrest, Prod.ext hhead hk.1]

end Values

section Sorted

variable [LinearOrder κ]

def insertPair (k : κ) (v : α) : List (κ × α) → List (κ × α)
  | [] => [(k, v)]
  | (j, w) :: rest =>
      if k < j then (k, v) :: (j, w) :: rest
      else if k = j then (k, v) :: rest
      else (j, w) :: insertPair k v rest

def collect (pairs : List (κ × α)) : List (κ × α) :=
  pairs.foldl (fun m p => insertPair p.1 p.2 m) []

abbrev Increasing (m : List (κ × α)) : Prop := m.Pairwise fun a b => a.1 < b.1

theorem mem_insertPair {k : κ} {v : α} {m : List (κ × α)} {p : κ × α}
    (h : p ∈ insertPair k v m) : p = (k, v) ∨ p ∈ m := by
  induction m with
  | nil => simpa [insertPair] using h
  | cons q rest ih =>
      obtain ⟨j, w⟩ := q
      simp only [insertPair] at h
      split at h
      · simpa using h
      · split at h
        · rcases List.mem_cons.mp h with h | h
          · exact .inl h
          · exact .inr (List.mem_cons_of_mem _ h)
        · rcases List.mem_cons.mp h with h | h
          · exact .inr (h ▸ List.mem_cons_self)
          · exact (ih h).imp_right (List.mem_cons_of_mem _)

theorem Increasing.insertPair {m : List (κ × α)} (h : Increasing m) (k : κ) (v : α) :
    Increasing (insertPair k v m) := by
  induction m with
  | nil => exact List.pairwise_singleton _ _
  | cons q rest ih =>
      obtain ⟨j, w⟩ := q
      obtain ⟨hhead, htail⟩ := List.pairwise_cons.mp h
      simp only [Library.insertPair]
      split
      · next hlt =>
          refine List.pairwise_cons.mpr ⟨?_, h⟩
          intro p hp
          rcases List.mem_cons.mp hp with rfl | hp
          · exact hlt
          · exact hlt.trans (hhead p hp)
      · split
        · next heq =>
            subst heq
            exact List.pairwise_cons.mpr ⟨hhead, htail⟩
        · next hlt hne =>
            refine List.pairwise_cons.mpr ⟨?_, ih htail⟩
            intro p hp
            rcases mem_insertPair hp with rfl | hp
            · exact lt_of_le_of_ne (not_lt.mp hlt) (Ne.symm hne)
            · exact hhead p hp

theorem Increasing.collect (pairs : List (κ × α)) : Increasing (collect pairs) := by
  have hfold : ∀ m : List (κ × α), Increasing m →
      Increasing (pairs.foldl (fun m p => Library.insertPair p.1 p.2 m) m) := by
    induction pairs with
    | nil => exact fun m hm => hm
    | cons p rest ih => exact fun m hm => ih _ (hm.insertPair p.1 p.2)
  exact hfold [] List.Pairwise.nil

theorem lookup_insertPair (k : κ) (v : α) (m : List (κ × α)) (j : κ) :
    (insertPair k v m).lookup j = if j = k then some v else m.lookup j := by
  induction m with
  | nil => rw [insertPair, lookup_cons_eq_ite]
  | cons q rest ih =>
      obtain ⟨i, w⟩ := q
      simp only [insertPair]
      split
      · rw [lookup_cons_eq_ite]
      · split
        · next heq =>
            subst heq
            simp only [lookup_cons_eq_ite]
            split <;> rfl
        · next hne =>
            simp only [lookup_cons_eq_ite, ih]
            by_cases hji : j = i
            · subst hji
              simp [Ne.symm hne]
            · simp [hji]

/-- The last value given for a key is the one kept. -/
theorem lookup_collect_concat (pairs : List (κ × α)) (p : κ × α) (k : κ) :
    (collect (pairs ++ [p])).lookup k = if k = p.1 then some p.2 else (collect pairs).lookup k := by
  rw [collect, List.foldl_append, List.foldl_cons, List.foldl_nil, lookup_insertPair, collect]

theorem lookup_collect (pairs : List (κ × α)) (k : κ) :
    (collect pairs).lookup k = pairs.reverse.lookup k := by
  induction pairs using List.reverseRecOn with
  | nil => rfl
  | append_singleton rest p ih =>
      rw [lookup_collect_concat, ih, List.reverse_append]
      rw [List.reverse_singleton, List.singleton_append, lookup_cons_eq_ite]

theorem Increasing.lookup_eq_some {m : List (κ × α)} (h : Increasing m) {k : κ} {v : α} :
    m.lookup k = some v ↔ (k, v) ∈ m := by
  induction m with
  | nil => simp
  | cons q rest ih =>
      obtain ⟨hhead, htail⟩ := List.pairwise_cons.mp h
      obtain ⟨j, w⟩ := q
      by_cases hk : k = j
      · subst hk
        have hout : (k, v) ∉ rest := fun hmem => lt_irrefl k (hhead (k, v) hmem)
        simp [hout, eq_comm]
      · rw [lookup_cons_eq_ite, if_neg hk, ih htail]
        simp [hk]

/-- Maps with the same entries are the same list. -/
theorem Increasing.ext {m n : List (κ × α)} (hm : Increasing m) (hn : Increasing n)
    (h : ∀ k, m.lookup k = n.lookup k) : m = n := by
  have hmem : ∀ p, p ∈ m ↔ p ∈ n := by
    rintro ⟨k, v⟩
    rw [← hm.lookup_eq_some, ← hn.lookup_eq_some, h k]
  have hnodup : ∀ {l : List (κ × α)}, Increasing l → l.Nodup := by
    intro l hl
    refine hl.imp ?_
    rintro p q hlt rfl
    exact lt_irrefl _ hlt
  have hperm := (List.perm_ext_iff_of_nodup (hnodup hm) (hnodup hn)).mpr hmem
  refine hperm.eq_of_pairwise ?_ hm hn
  intro p q _ _ hpq hqp
  exact absurd (lt_trans hpq hqp) (lt_irrefl _)

theorem insertPair_of_last {m : List (κ × α)} {k : κ} {v : α} (h : ∀ p ∈ m, p.1 < k) :
    insertPair k v m = m ++ [(k, v)] := by
  induction m with
  | nil => rfl
  | cons q rest ih =>
      have hq : q.1 < k := h q List.mem_cons_self
      rw [insertPair, if_neg hq.asymm, if_neg (ne_of_gt hq),
        ih fun p hp => h p (List.mem_cons_of_mem _ hp), List.cons_append]

theorem Increasing.insertPair_eq_self {m : List (κ × α)} (h : Increasing m) {k : κ} {v : α} :
    Library.insertPair k v m = m ↔ m.lookup k = some v := by
  constructor
  · intro heq
    rw [← heq, lookup_insertPair, if_pos rfl]
  · intro hlookup
    refine (h.insertPair k v).ext h fun j => ?_
    rw [lookup_insertPair]
    split
    · next hj =>
        subst hj
        exact hlookup.symm
    · rfl

/-- Pairs with distinct keys are collected by sorting them. -/
theorem collect_of_perm {m pairs : List (κ × α)} (hm : Increasing m)
    (hnodup : (pairs.map Prod.fst).Nodup) (hperm : m.Perm pairs) : collect pairs = m := by
  refine (Increasing.collect pairs).ext hm fun k => ?_
  rw [lookup_collect, lookup_reverse hnodup]
  apply Option.ext
  intro v
  rw [lookup_eq_some_of_nodup hnodup, hm.lookup_eq_some, hperm.mem_iff]

/-- Collecting pairs with distinct keys sorts them. -/
theorem perm_collect {pairs : List (κ × α)} (hnodup : (pairs.map Prod.fst).Nodup) :
    (collect pairs).Perm pairs := by
  have hkeys : ((collect pairs).map Prod.fst).Nodup := by
    rw [List.Nodup, List.pairwise_map]
    exact (Increasing.collect pairs).imp fun h => ne_of_lt h
  refine (List.perm_ext_iff_of_nodup (List.Nodup.of_map _ hkeys)
    (List.Nodup.of_map _ hnodup)).mpr ?_
  rintro ⟨k, v⟩
  rw [← (Increasing.collect pairs).lookup_eq_some, lookup_collect, lookup_reverse hnodup,
    lookup_eq_some_of_nodup hnodup]

theorem mem_of_mem_collect {pairs : List (κ × α)} {p : κ × α} (h : p ∈ collect pairs) :
    p ∈ pairs := by
  have hlookup := (Increasing.collect pairs).lookup_eq_some.mpr h
  rw [lookup_collect] at hlookup
  exact List.mem_reverse.mp (mem_of_lookup hlookup)

theorem collect_ne_nil {pairs : List (κ × α)} (h : pairs ≠ []) : collect pairs ≠ [] := by
  obtain ⟨p, rest, rfl⟩ := List.exists_cons_of_ne_nil h
  intro hnil
  have hlookup := lookup_collect (p :: rest) p.1
  rw [hnil, List.lookup_nil] at hlookup
  have hnone := List.lookup_eq_none_iff.mp hlookup.symm p (by simp)
  simp at hnone

end Sorted

end TimeLake.Library
