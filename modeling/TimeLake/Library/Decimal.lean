import Mathlib.Data.String.Basic
import Mathlib.Data.List.Lex
import Mathlib.Tactic.Ring

/-!
Zero-padded decimal rendering, the `{:0w}` of a format string: the digits of a
natural number, preceded by zeros up to the width, and for an integer a sign
that counts towards the width. Rendering is injective at every width. It is
monotone from numbers to lexicographic order only below `10 ^ w`: a longer
number starts with its own leading digit instead of a zero.
-/

namespace TimeLake.Library

def padNat (width n : Nat) : List Char :=
  List.replicate (width - (Nat.toDigits 10 n).length) '0' ++ Nat.toDigits 10 n

def padInt (width : Nat) (x : Int) : List Char :=
  if x < 0 then '-' :: padNat (width - 1) x.natAbs else padNat width x.natAbs

theorem padNat_isDigit {width n : Nat} {c : Char} (h : c ∈ padNat width n) :
    c.isDigit = true := by
  simp only [padNat, List.mem_append, List.mem_replicate] at h
  rcases h with ⟨_, rfl⟩ | h
  · decide
  · exact Nat.isDigit_of_mem_toDigits (by decide) (by decide) h

theorem padNat_ne_nil (width n : Nat) : padNat width n ≠ [] := by
  simp [padNat]

theorem padNat_value (width n : Nat) : Nat.ofDigitChars 10 (padNat width n) 0 = n := by
  simp [padNat, Nat.ofDigitChars_append]

theorem padNat_injective (width : Nat) : Function.Injective (padNat width) := by
  intro a b h
  rw [← padNat_value width a, h, padNat_value]

theorem length_padNat {width n : Nat} (hw : 0 < width) (hn : n < 10 ^ width) :
    (padNat width n).length = width := by
  have hlen := (Nat.length_toDigits_le_iff (b := 10) (n := n) (by decide) hw).mpr hn
  simp [padNat]
  omega

theorem padInt_injective (width : Nat) : Function.Injective (padInt width) := by
  have hsign (w n : Nat) : '-' ∉ padNat w n := fun h => by
    have := padNat_isDigit h
    revert this
    decide
  intro a b h
  unfold padInt at h
  split at h <;> split at h
  · have := padNat_injective _ (List.cons.inj h).2
    omega
  · exact absurd (h ▸ List.mem_cons_self) (hsign _ _)
  · exact absurd (h ▸ List.mem_cons_self) (hsign _ _)
  · have := padNat_injective _ h
    omega

private theorem digit_bounds {c : Char} (h : c.isDigit = true) :
    '0'.toNat ≤ c.toNat ∧ c.toNat ≤ '0'.toNat + 9 := by
  simp only [Char.isDigit, Bool.and_eq_true, decide_eq_true_eq] at h
  exact ⟨UInt32.le_iff_toNat_le.mp h.1, UInt32.le_iff_toNat_le.mp h.2⟩

private theorem ofDigitChars_lt (ds : List Char) (hds : ∀ c ∈ ds, c.isDigit = true) :
    Nat.ofDigitChars 10 ds 0 < 10 ^ ds.length := by
  induction ds with
  | nil => simp
  | cons c rest ih =>
      have hrest := ih fun d hd => hds d (by simp [hd])
      have hc := digit_bounds (hds c (by simp))
      rw [Nat.ofDigitChars_cons, Nat.ofDigitChars_eq_ofDigitChars_zero]
      simp only [List.length_cons, Nat.pow_succ]
      have hmul : 10 ^ rest.length * (10 * 0 + (c.toNat - '0'.toNat)) ≤
          10 ^ rest.length * 9 := Nat.mul_le_mul_left _ (by omega)
      omega

/-- Digit strings of one length compare as the numbers they denote. -/
theorem lex_of_ofDigitChars_lt (xs ys : List Char) (hlen : xs.length = ys.length)
    (hx : ∀ c ∈ xs, c.isDigit = true) (hy : ∀ c ∈ ys, c.isDigit = true)
    (h : Nat.ofDigitChars 10 xs 0 < Nat.ofDigitChars 10 ys 0) : xs < ys := by
  induction xs generalizing ys with
  | nil =>
      cases ys with
      | nil => simp at h
      | cons _ _ => simp at hlen
  | cons c xs ih =>
      cases ys with
      | nil => simp at hlen
      | cons d ys =>
          have hlen' : xs.length = ys.length := by simpa using hlen
          have hxs : ∀ e ∈ xs, e.isDigit = true := fun e he => hx e (by simp [he])
          have hys : ∀ e ∈ ys, e.isDigit = true := fun e he => hy e (by simp [he])
          have hc := digit_bounds (hx c (by simp))
          have hd := digit_bounds (hy d (by simp))
          rw [Nat.ofDigitChars_cons, Nat.ofDigitChars_eq_ofDigitChars_zero,
            Nat.ofDigitChars_cons, Nat.ofDigitChars_eq_ofDigitChars_zero (l := ys),
            hlen'] at h
          have hxlt := ofDigitChars_lt xs hxs
          have hylt := ofDigitChars_lt ys hys
          rw [hlen'] at hxlt
          rcases Nat.lt_trichotomy c.toNat d.toNat with hlt | heq | hgt
          · exact List.Lex.rel hlt
          · obtain rfl : c = d := Char.toNat_inj.mp heq
            exact List.Lex.cons (ih ys hlen' hxs hys (by omega))
          · exfalso
            have hmul : 10 ^ ys.length * (10 * 0 + (d.toNat - '0'.toNat)) + 10 ^ ys.length ≤
                10 ^ ys.length * (10 * 0 + (c.toNat - '0'.toNat)) := by
              rw [← Nat.mul_succ]
              exact Nat.mul_le_mul_left _ (by omega)
            omega

/-- Below `10 ^ width` the lexicographic order of padded numbers is their
numerical order. -/
theorem padNat_lt {width a b : Nat} (hw : 0 < width) (hab : a < b)
    (hb : b < 10 ^ width) : padNat width a < padNat width b := by
  apply lex_of_ofDigitChars_lt
  · rw [length_padNat hw (by omega), length_padNat hw hb]
  · exact fun c hc => padNat_isDigit hc
  · exact fun c hc => padNat_isDigit hc
  · rw [padNat_value, padNat_value]
    exact hab

/-- What follows a strictly smaller list of the same length does not matter. -/
theorem append_lt_append {xs ys : List Char} (hlen : xs.length = ys.length)
    (h : xs < ys) (tail tail' : List Char) : xs ++ tail < ys ++ tail' := by
  induction xs generalizing ys with
  | nil =>
      cases ys with
      | nil => exact absurd h (lt_irrefl _)
      | cons _ _ => simp at hlen
  | cons c xs ih =>
      cases ys with
      | nil => simp at hlen
      | cons d ys =>
          rcases List.cons_lt_cons_iff.mp h with hlt | ⟨rfl, hrest⟩
          · exact List.Lex.rel hlt
          · exact List.Lex.cons (ih (by simpa using hlen) hrest)

/-- The same for a number between a fixed head and a fixed tail of a string. -/
theorem string_padNat_lt (head tail : String) {width a b : Nat} (hw : 0 < width)
    (hab : a < b) (hb : b < 10 ^ width) :
    head ++ String.ofList (padNat width a) ++ tail <
      head ++ String.ofList (padNat width b) ++ tail := by
  have hlen : (padNat width a).length = (padNat width b).length := by
    rw [length_padNat hw (by omega), length_padNat hw hb]
  simp only [String.append_assoc, String.lt_iff_toList_lt, String.toList_append,
    String.toList_ofList]
  apply List.append_left_lt
  exact append_lt_append hlen (padNat_lt hw hab hb) _ _

end TimeLake.Library
