import Mathlib.Data.List.Basic
import Mathlib.Data.Nat.Basic

/-!
A list cut into pieces of one length, of which the last may be shorter, as the
`chunks` of a slice. Such pieces are determined by their concatenation, and
whole pieces can be dropped or taken on either side.
-/

namespace TimeLake.Library

universe u

variable {α : Type u}

/-- Pieces of `n` elements; the last one may be shorter. -/
def chunks (n : Nat) (xs : List α) : List (List α) :=
  (List.range ((xs.length + n - 1) / n)).map fun i => (xs.drop (i * n)).take n

/-- Every piece has length `n`, except that the last is only not empty and not
longer. -/
def Regular (n : Nat) : List (List α) → Prop
  | [] => True
  | [piece] => 0 < piece.length ∧ piece.length ≤ n
  | piece :: rest => piece.length = n ∧ Regular n rest

section Chunks

variable {n : Nat}

theorem chunks_nil : chunks n ([] : List α) = [] := by
  have hzero : (([] : List α).length + n - 1) / n = 0 := by
    rcases Nat.eq_zero_or_pos n with rfl | hn
    · exact Nat.div_zero _
    · exact Nat.div_eq_of_lt (by simp; omega)
  rw [chunks, hzero, List.range_zero, List.map_nil]

theorem chunks_of_ne_nil (hn : 0 < n) {xs : List α} (hxs : xs ≠ []) :
    chunks n xs = xs.take n :: chunks n (xs.drop n) := by
  have hpos : 0 < xs.length := List.length_pos_of_ne_nil hxs
  have hcount : (xs.length + n - 1) / n = ((xs.drop n).length + n - 1) / n + 1 := by
    rw [List.length_drop]
    by_cases hle : n ≤ xs.length
    · have hsplit : xs.length + n - 1 = xs.length - n + n - 1 + n := by omega
      rw [hsplit, Nat.add_div_right _ hn]
    · have hzero : xs.length - n = 0 := by omega
      have hsplit : xs.length + n - 1 = xs.length - 1 + n := by omega
      rw [hsplit, hzero, Nat.add_div_right _ hn, Nat.div_eq_of_lt (by omega),
        Nat.div_eq_of_lt (by omega)]
  rw [chunks, hcount, List.range_succ_eq_map, List.map_cons, List.map_map, Nat.zero_mul,
    List.drop_zero, chunks]
  refine congrArg _ (List.map_congr_left fun i _ => ?_)
  simp only [Function.comp_apply, List.drop_drop, Nat.succ_mul, Nat.add_comm]

theorem Regular.cons {piece : List α} {rest : List (List α)} (hpiece : piece.length = n)
    (hpos : 0 < n) (hrest : Regular n rest) : Regular n (piece :: rest) := by
  cases rest with
  | nil => exact ⟨by omega, by omega⟩
  | cons next rest => exact ⟨hpiece, hrest⟩

theorem Regular.tail {piece : List α} {rest : List (List α)} (h : Regular n (piece :: rest)) :
    Regular n rest := by
  cases rest with
  | nil => exact trivial
  | cons next rest => exact h.2

/-- The pieces of a concatenation of pieces are these pieces. -/
theorem chunks_flatten (hn : 0 < n) {pieces : List (List α)} (h : Regular n pieces) :
    chunks n pieces.flatten = pieces := by
  induction pieces with
  | nil => exact chunks_nil
  | cons piece rest ih =>
      have hne : (piece :: rest).flatten ≠ [] := by
        intro hnil
        have hzero : piece = [] := (List.append_eq_nil_iff.mp hnil).1
        cases rest with
        | nil => exact absurd h.1 (by simp [hzero])
        | cons next rest => exact absurd h.1 (by simp [hzero]; omega)
      rw [chunks_of_ne_nil hn hne, List.flatten_cons]
      cases rest with
      | nil =>
          rw [List.flatten_nil, List.append_nil, List.take_of_length_le h.2,
            List.drop_of_length_le h.2, chunks_nil]
      | cons next rest =>
          rw [← h.1, List.take_left, List.drop_left, h.1, ih h.2]

theorem regular_chunks_and_flatten (hn : 0 < n) (xs : List α) :
    Regular n (chunks n xs) ∧ (chunks n xs).flatten = xs := by
  induction hlen : xs.length using Nat.strongRecOn generalizing xs with
  | ind len ih =>
      by_cases hxs : xs = []
      · subst hxs
        rw [chunks_nil]
        exact ⟨trivial, rfl⟩
      · have hpos : 0 < xs.length := List.length_pos_of_ne_nil hxs
        have hless : (xs.drop n).length < len := by
          rw [List.length_drop]
          omega
        obtain ⟨hreg, hflat⟩ := ih (xs.drop n).length hless (xs.drop n) rfl
        rw [chunks_of_ne_nil hn hxs, List.flatten_cons, hflat, List.take_append_drop]
        refine ⟨?_, rfl⟩
        by_cases hle : xs.length ≤ n
        · rw [List.drop_of_length_le hle, chunks_nil, List.take_of_length_le hle]
          exact ⟨hpos, hle⟩
        · exact hreg.cons (List.length_take_of_le (by omega)) hn

theorem regular_chunks (hn : 0 < n) (xs : List α) : Regular n (chunks n xs) :=
  (regular_chunks_and_flatten hn xs).1

theorem flatten_chunks (hn : 0 < n) (xs : List α) : (chunks n xs).flatten = xs :=
  (regular_chunks_and_flatten hn xs).2

theorem length_chunks (xs : List α) : (chunks n xs).length = (xs.length + n - 1) / n := by
  rw [chunks, List.length_map, List.length_range]

theorem Regular.drop {pieces : List (List α)} (h : Regular n pieces) (k : Nat) :
    Regular n (pieces.drop k) := by
  induction k generalizing pieces with
  | zero => exact h
  | succ k ih =>
      cases pieces with
      | nil => exact h
      | cons piece rest => exact ih h.tail

theorem Regular.flatten_drop {pieces : List (List α)} (h : Regular n pieces) (k : Nat) :
    (pieces.drop k).flatten = pieces.flatten.drop (k * n) := by
  induction k generalizing pieces with
  | zero => simp
  | succ k ih =>
      cases pieces with
      | nil => simp
      | cons piece rest =>
          rw [List.drop_succ_cons, ih h.tail, List.flatten_cons]
          cases rest with
          | nil =>
              have hle : piece.length ≤ (k + 1) * n :=
                Nat.le_trans h.2 (Nat.le_mul_of_pos_left n (by omega))
              simp [List.drop_of_length_le hle]
          | cons next rest =>
              rw [Nat.succ_mul, Nat.add_comm, ← List.drop_drop, ← h.1, List.drop_left]

theorem Regular.flatten_take {pieces : List (List α)} (h : Regular n pieces) (k : Nat) :
    (pieces.take k).flatten = pieces.flatten.take (k * n) := by
  induction k generalizing pieces with
  | zero => simp
  | succ k ih =>
      cases pieces with
      | nil => simp
      | cons piece rest =>
          rw [List.take_succ_cons, List.flatten_cons, ih h.tail, List.flatten_cons]
          cases rest with
          | nil =>
              have hle : piece.length ≤ (k + 1) * n :=
                Nat.le_trans h.2 (Nat.le_mul_of_pos_left n (by omega))
              simp [List.take_of_length_le hle]
          | cons next rest =>
              rw [Nat.succ_mul, Nat.add_comm, ← h.1, List.take_length_add_append]

theorem Regular.take (hn : 0 < n) {pieces : List (List α)} (h : Regular n pieces) (k : Nat) :
    Regular n (pieces.take k) := by
  induction k generalizing pieces with
  | zero => exact trivial
  | succ k ih =>
      cases pieces with
      | nil => exact h
      | cons piece rest =>
          cases rest with
          | nil =>
              rw [List.take_succ_cons, List.take_nil]
              exact h
          | cons next rest =>
              cases k with
              | zero => exact Regular.cons h.1 hn trivial
              | succ k => exact ⟨h.1, ih h.2⟩

end Chunks

end TimeLake.Library
