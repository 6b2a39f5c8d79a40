import TimeLake.Library.Pairs

/-!
The distinct values of a list in the order they first appear, as a table that interns
its values holds them.
-/

namespace TimeLake.Library

variable {κ : Type*} [DecidableEq κ]

/-- The table after more values. -/
def intern (table xs : List κ) : List κ := xs.foldl addName table

theorem intern_append (table xs ys : List κ) :
    intern table (xs ++ ys) = intern (intern table xs) ys := List.foldl_append

/-- New values without a repetition are all added. -/
theorem intern_of_nodup {table xs : List κ} (h : (table ++ xs).Nodup) :
    intern table xs = table ++ xs := by
  induction xs generalizing table with
  | nil => rw [List.append_nil, intern, List.foldl_nil]
  | cons x xs ih =>
      have hx : x ∉ table := fun hmem =>
        (List.nodup_append.mp h).2.2 x hmem x List.mem_cons_self rfl
      have hadd : addName table x = table ++ [x] := if_neg hx
      have hcons : intern table (x :: xs) = intern (addName table x) xs := rfl
      rw [hcons, hadd, ih (by simpa using h), List.append_assoc, List.singleton_append]

end TimeLake.Library
