import Mathlib.Data.List.Sort

/-!
Listing a set of keys a page at a time, where a page comes with a token for the
next one and the set may change from page to page. A token stands somewhere in the
order of the keys, and a page has the keys of the set from there to where its own
token stands. Then what is in the set all the time is listed, once; and what is
listed was in the set when its page was made.
-/

namespace TimeLake.Library

section Gather

variable {κ τ ε : Type*}

/-- The pages from the `i`-th on, until one has no token; nothing where that does
not happen. -/
def listPages (fetch : Nat → Option τ → Except ε (List κ × Option τ)) :
    Nat → Nat → Option τ → Option (Except ε (List κ))
  | 0, _, _ => none
  | fuel + 1, i, token =>
      match fetch i token with
      | .error e => some (.error e)
      | .ok (keys, none) => some (.ok keys)
      | .ok (keys, some next) =>
          (listPages fetch fuel (i + 1) (some next)).map (Except.map (keys ++ ·))

variable {fetch : Nat → Option τ → Except ε (List κ × Option τ)}

theorem listPages_succ {fuel i : Nat} {token : Option τ} {listed : List κ}
    (h : listPages fetch (fuel + 1) i token = some (.ok listed)) :
    fetch i token = .ok (listed, none) ∨ ∃ page next rest,
      fetch i token = .ok (page, some next) ∧
        listPages fetch fuel (i + 1) (some next) = some (.ok rest) ∧ listed = page ++ rest := by
  rw [listPages] at h
  split at h
  · cases h
  · next page hfetch =>
      obtain rfl := Except.ok.inj (Option.some.inj h)
      exact .inl hfetch
  · next page next hfetch =>
      obtain ⟨result, hrest, hmap⟩ := Option.map_eq_some_iff.mp h
      cases result with
      | error e => cases hmap
      | ok rest => exact .inr ⟨page, next, rest, hfetch, hrest, (Except.ok.inj hmap).symm⟩

variable [LinearOrder κ]

/-- A key that the token has not passed. -/
def Ahead (place : τ → κ) (token : Option τ) (k : κ) : Prop := ∀ t ∈ token, place t < k

/-- A page of the keys of a set: those between where its token stands and where the
next one does. -/
structure PageOf (place : τ → κ) (keys : List κ) (token : Option τ) (page : List κ)
    (next : Option τ) : Prop where
  ordered : page.Pairwise (· < ·)
  there : ∀ k ∈ page, k ∈ keys ∧ Ahead place token k
  within : ∀ t ∈ next, ∀ k ∈ page, k ≤ place t
  onward : ∀ t ∈ token, ∀ t' ∈ next, place t ≤ place t'
  complete : ∀ k ∈ keys, Ahead place token k → (∀ t ∈ next, k ≤ place t) → k ∈ page

variable {place : τ → κ} {keysAt : Nat → List κ}

/-- The pages of a run of fetches, each of the set of its time. -/
def Pages (place : τ → κ) (keysAt : Nat → List κ)
    (fetch : Nat → Option τ → Except ε (List κ × Option τ)) : Prop :=
  ∀ i token page next, fetch i token = .ok (page, next) → PageOf place (keysAt i) token page next

variable {fuel i : Nat} {token : Option τ} {listed : List κ} (hpages : Pages place keysAt fetch)

include hpages

/-- What is listed was there when its page was made. -/
theorem listPages_sound (h : listPages fetch fuel i token = some (.ok listed)) {k : κ}
    (hk : k ∈ listed) : ∃ j, i ≤ j ∧ k ∈ keysAt j := by
  induction fuel generalizing i token listed with
  | zero => cases h
  | succ fuel ih =>
      rcases listPages_succ h with hlast | ⟨page, next, rest, hfetch, hrest, rfl⟩
      · exact ⟨i, le_rfl, ((hpages _ _ _ _ hlast).there k hk).1⟩
      · rcases List.mem_append.mp hk with hk | hk
        · exact ⟨i, le_rfl, ((hpages _ _ _ _ hfetch).there k hk).1⟩
        · obtain ⟨j, hj, hin⟩ := ih hrest hk
          exact ⟨j, by omega, hin⟩

/-- What is there all the time is listed. -/
theorem listPages_complete (h : listPages fetch fuel i token = some (.ok listed)) {k : κ}
    (hk : ∀ j, i ≤ j → k ∈ keysAt j) (htoken : Ahead place token k) : k ∈ listed := by
  induction fuel generalizing i token listed with
  | zero => cases h
  | succ fuel ih =>
      rcases listPages_succ h with hlast | ⟨page, next, rest, hfetch, hrest, rfl⟩
      · exact (hpages _ _ _ _ hlast).complete k (hk i le_rfl) htoken nofun
      · have hpage := hpages _ _ _ _ hfetch
        rw [List.mem_append]
        by_cases hle : k ≤ place next
        · refine .inl (hpage.complete k (hk i le_rfl) htoken ?_)
          rintro t ⟨⟩
          exact hle
        · refine .inr (ih hrest (fun j hj => hk j (by omega)) ?_)
          rintro t ⟨⟩
          exact lt_of_not_ge hle

/-- What is listed lies ahead of the token, in order and once. -/
theorem listPages_pairwise (h : listPages fetch fuel i token = some (.ok listed)) :
    listed.Pairwise (· < ·) ∧ ∀ k ∈ listed, Ahead place token k := by
  induction fuel generalizing i token listed with
  | zero => cases h
  | succ fuel ih =>
      rcases listPages_succ h with hlast | ⟨page, next, rest, hfetch, hrest, rfl⟩
      · have hpage := hpages _ _ _ _ hlast
        exact ⟨hpage.ordered, fun k hk => (hpage.there k hk).2⟩
      · have hpage := hpages _ _ _ _ hfetch
        obtain ⟨hpairs, hahead⟩ := ih hrest
        refine ⟨List.pairwise_append.mpr ⟨hpage.ordered, hpairs, ?_⟩, ?_⟩
        · exact fun a ha b hb =>
            (hpage.within next rfl a ha).trans_lt (hahead b hb next rfl)
        · intro k hk t ht
          rcases List.mem_append.mp hk with hk | hk
          · exact (hpage.there k hk).2 t ht
          · exact (hpage.onward t ht next rfl).trans_lt (hahead k hk next rfl)

end Gather

section Sorted

variable {κ : Type*} [LinearOrder κ]

/-- The keys behind a token, in order. -/
def behind (keys : List κ) (token : Option κ) : List κ :=
  (keys.filter fun k => token.all (· < k)).insertionSort (· ≤ ·)

/-- What is in a list without repetitions decides its order when sorted. -/
theorem insertionSort_congr {a b : List κ} (ha : a.Nodup) (hb : b.Nodup)
    (hsame : ∀ k, k ∈ a ↔ k ∈ b) : a.insertionSort (· ≤ ·) = b.insertionSort (· ≤ ·) := by
  have hperm : (a.insertionSort (· ≤ ·)).Perm (b.insertionSort (· ≤ ·)) :=
    (List.perm_insertionSort _ _).trans
      (((List.perm_ext_iff_of_nodup ha hb).mpr hsame).trans (List.perm_insertionSort _ _).symm)
  refine hperm.eq_of_pairwise ?_ (List.pairwise_insertionSort _ _) (List.pairwise_insertionSort _ _)
  intro x y _ _ hxy hyx
  exact le_antisymm hxy hyx

theorem mem_behind {keys : List κ} {token : Option κ} {k : κ} :
    k ∈ behind keys token ↔ k ∈ keys ∧ ∀ t ∈ token, t < k := by
  rw [behind, List.mem_insertionSort, List.mem_filter]
  cases token <;> simp

theorem pairwise_behind {keys : List κ} (hnodup : keys.Nodup) (token : Option κ) :
    (behind keys token).Pairwise (· < ·) := by
  have hle : (behind keys token).Pairwise (· ≤ ·) := List.pairwise_insertionSort _ _
  have hne : (behind keys token).Nodup :=
    (List.perm_insertionSort _ _).nodup_iff.mpr (hnodup.filter _)
  exact (hle.and hne).imp fun h => lt_of_le_of_ne h.1 h.2

variable {keys : List κ} {n : Nat} {token : Option κ}

/-- A page that is not the last one ends with a key, which is the next token: it
is not before any key of the page and before all keys behind the page. -/
theorem page_last (hnodup : keys.Nodup) (hn : 0 < n) (hlong : n < (behind keys token).length) :
    ∃ last, ((behind keys token).take n).getLast? = some last ∧
      (∀ k ∈ (behind keys token).take n, k ≤ last) ∧
      ∀ k ∈ (behind keys token).drop n, last < k := by
  have hsorted := pairwise_behind hnodup token
  rw [← List.take_append_drop n (behind keys token), List.pairwise_append] at hsorted
  have hne : (behind keys token).take n ≠ [] := by
    intro hnil
    have hlen := congrArg List.length hnil
    rw [List.length_take, List.length_nil] at hlen
    omega
  obtain ⟨front, last, hpage⟩ := (List.eq_nil_or_concat' _).resolve_left hne
  have hpairs := hsorted.1
  rw [hpage] at hpairs
  refine ⟨last, by rw [hpage, List.getLast?_concat], ?_, ?_⟩
  · intro k hk
    rw [hpage, List.mem_append, List.mem_singleton] at hk
    rcases hk with hk | rfl
    · exact ((List.pairwise_append.mp hpairs).2.2 k hk last (by simp)).le
    · exact le_rfl
  · exact hsorted.2.2 last (by simp [hpage])

/-- The first `n` keys behind the last key of the page before. -/
def sortedPage (n : Nat) (keys : List κ) (token : Option κ) : List κ × Option κ :=
  if (behind keys token).length ≤ n then (behind keys token, none)
  else ((behind keys token).take n, ((behind keys token).take n).getLast?)

theorem sortedPage_pageOf (hnodup : keys.Nodup) (hn : 0 < n) (token : Option κ) :
    PageOf id keys token (sortedPage n keys token).1 (sortedPage n keys token).2 := by
  rw [sortedPage]
  split
  · exact ⟨pairwise_behind hnodup token, fun k hk => mem_behind.mp hk, nofun,
      fun _ _ => nofun, fun k hk htoken _ => mem_behind.mpr ⟨hk, htoken⟩⟩
  · next hlong =>
      obtain ⟨last, hlast, hpage, hlater⟩ := page_last hnodup hn (Nat.lt_of_not_le hlong)
      have hin := (mem_behind.mp (List.mem_of_mem_take (List.mem_of_getLast? hlast))).2
      rw [hlast]
      refine ⟨(pairwise_behind hnodup token).sublist (List.take_sublist n _),
        fun k hk => mem_behind.mp (List.mem_of_mem_take hk), ?_, ?_, ?_⟩
      · rintro t ⟨⟩ k hk
        exact hpage k hk
      · rintro t ht t' ⟨⟩
        exact (hin t ht).le
      · intro k hk htoken hle
        have hmem := mem_behind.mpr ⟨hk, htoken⟩
        rw [← List.take_append_drop n (behind keys token), List.mem_append] at hmem
        refine hmem.resolve_right fun hdrop => ?_
        exact absurd (hle last rfl) (not_le_of_gt (hlater k hdrop))

end Sorted

end TimeLake.Library
