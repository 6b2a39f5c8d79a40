import Mathlib.Data.List.TakeWhile

/-!
Cutting a list at the first element of its kind, as `split_once` does: the cut is
determined by the part in front having none. `rcutAt` cuts at the last one.
-/

namespace TimeLake.Library

variable {α : Type*} [DecidableEq α]

/-- What is in front of the first `a`, and what is behind it. -/
def cutAt (a : α) (xs : List α) : Option (List α × List α) :=
  match xs.dropWhile (· ≠ a) with
  | [] => none
  | _ :: after => some (xs.takeWhile (· ≠ a), after)

private theorem all_ne {a : α} {before : List α} (h : a ∉ before) :
    ∀ x ∈ before, decide (x ≠ a) = true := by
  intro x hx
  have hne : x ≠ a := fun heq => h (heq ▸ hx)
  simpa using hne

theorem dropWhile_ne_append {a : α} {before : List α} (h : a ∉ before) (after : List α) :
    (before ++ a :: after).dropWhile (· ≠ a) = a :: after := by
  rw [List.dropWhile_append_of_pos (all_ne h)]
  simp

theorem cutAt_append {a : α} {before : List α} (h : a ∉ before) (after : List α) :
    cutAt a (before ++ a :: after) = some (before, after) := by
  have htake : (before ++ a :: after).takeWhile (· ≠ a) = before := by
    rw [List.takeWhile_append_of_pos (all_ne h)]
    simp
  rw [cutAt, dropWhile_ne_append h, htake]

theorem cutAt_eq_none {a : α} {xs : List α} : cutAt a xs = none ↔ a ∉ xs := by
  constructor
  · intro h hmem
    obtain ⟨before, after, rfl, hout⟩ := List.eq_append_cons_of_mem hmem
    rw [cutAt_append hout] at h
    cases h
  · intro h
    have hdrop : xs.dropWhile (· ≠ a) = [] := List.dropWhile_eq_nil_iff.mpr (all_ne h)
    rw [cutAt, hdrop]

theorem cutAt_eq_some {a : α} {xs before after : List α} :
    cutAt a xs = some (before, after) ↔ xs = before ++ a :: after ∧ a ∉ before := by
  constructor
  · intro h
    have hmem : a ∈ xs := by
      by_contra hout
      rw [cutAt_eq_none.mpr hout] at h
      cases h
    obtain ⟨front, back, rfl, hout⟩ := List.eq_append_cons_of_mem hmem
    rw [cutAt_append hout] at h
    obtain ⟨rfl, rfl⟩ := Prod.mk.inj (Option.some.inj h)
    exact ⟨rfl, hout⟩
  · rintro ⟨rfl, hout⟩
    exact cutAt_append hout after

/-- What stands between one `a` and the next, and what stands behind the last one if
anything does. -/
def pieces (a : α) : List α → List (List α)
  | [] => []
  | x :: rest =>
      if x = a then [] :: pieces a rest
      else match pieces a rest with
        | [] => [[x]]
        | piece :: more => (x :: piece) :: more

theorem pieces_eq_nil {a : α} {xs : List α} : pieces a xs = [] ↔ xs = [] := by
  cases xs with
  | nil => exact ⟨fun _ => rfl, fun _ => rfl⟩
  | cons x rest =>
      rw [pieces]
      split
      · simp
      · split <;> simp

theorem pieces_concat {a : α} {piece : List α} (h : a ∉ piece) :
    pieces a (piece ++ [a]) = [piece] := by
  induction piece with
  | nil => rw [List.nil_append, pieces, if_pos rfl, pieces]
  | cons x piece ih =>
      obtain ⟨hx, hpiece⟩ := not_or.mp (List.mem_cons.not.mp h)
      rw [List.cons_append, pieces, if_neg (Ne.symm hx), ih hpiece]

theorem pieces_append (a : α) (front rest : List α) :
    pieces a (front ++ a :: rest) = pieces a (front ++ [a]) ++ pieces a rest := by
  induction front with
  | nil =>
      rw [List.nil_append, List.nil_append, pieces, pieces, if_pos rfl, if_pos rfl, pieces]
      rfl
  | cons x front ih =>
      rw [List.cons_append, List.cons_append, pieces, pieces, ih]
      by_cases hx : x = a
      · rw [if_pos hx, if_pos hx, List.cons_append]
      · rw [if_neg hx, if_neg hx]
        cases hfront : pieces a (front ++ [a]) with
        | nil => simp [pieces_eq_nil] at hfront
        | cons piece more => rfl

/-- What is in front of the last `a`, and what is behind it. -/
def rcutAt (a : α) (xs : List α) : Option (List α × List α) :=
  (cutAt a xs.reverse).map fun p => (p.2.reverse, p.1.reverse)

theorem rcutAt_append {a : α} {after : List α} (h : a ∉ after) (before : List α) :
    rcutAt a (before ++ a :: after) = some (before, after) := by
  have hrev : (before ++ a :: after).reverse = after.reverse ++ a :: before.reverse := by simp
  rw [rcutAt, hrev, cutAt_append (by simpa using h), Option.map_some, List.reverse_reverse,
    List.reverse_reverse]

end TimeLake.Library
