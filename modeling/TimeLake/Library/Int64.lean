import Mathlib.Data.Int.Order.Basic
import Mathlib.Algebra.Order.Group.Unbundled.Int
import Mathlib.Tactic.Linarith

/-!
Signed 64-bit arithmetic on integers: the range, wrapping and saturation, and
rounding down to a multiple of a step.
-/

namespace TimeLake.Library

/-- The values of a signed 64-bit integer. -/
def IsI64 (x : Int) : Prop := -2 ^ 63 ≤ x ∧ x < 2 ^ 63

instance (x : Int) : Decidable (IsI64 x) := inferInstanceAs (Decidable (_ ∧ _))

/-- Two's complement: what `as i64` and the overflowing operators leave. -/
def wrap64 (x : Int) : Int := x.bmod (2 ^ 64)

theorem wrap64_eq {x : Int} (h : IsI64 x) : wrap64 x = x := by
  obtain ⟨hlo, hhi⟩ := h
  unfold wrap64
  apply Int.bmod_eq_of_le <;> omega

theorem wrap64_eq_emod (x : Int) : wrap64 x = (x + 2 ^ 63) % 2 ^ 64 - 2 ^ 63 := by
  unfold wrap64 Int.bmod
  dsimp only
  split <;> omega

theorem isI64_wrap64 (x : Int) : IsI64 (wrap64 x) := by
  have hlo := Int.le_bmod (x := x) (m := 2 ^ 64) (by norm_num)
  have hhi := Int.bmod_lt (x := x) (m := 2 ^ 64) (by norm_num)
  unfold IsI64 wrap64
  omega

def saturate64 (x : Int) : Int := max (-2 ^ 63) (min x (2 ^ 63 - 1))

theorem saturate64_eq {x : Int} (h : IsI64 x) : saturate64 x = x := by
  obtain ⟨hlo, hhi⟩ := h
  unfold saturate64
  omega

/-- The largest multiple of `step` that is not above `x`. -/
def floorTo (step x : Int) : Int := x / step * step

section FloorTo

variable {step : Int}

theorem dvd_floorTo (x : Int) : step ∣ floorTo step x := Dvd.intro_left _ rfl

theorem floorTo_eq_sub (x : Int) : floorTo step x = x - x % step := by
  have h := Int.mul_ediv_add_emod x step
  have hc := Int.mul_comm step (x / step)
  unfold floorTo
  omega

/-- Two multiples of the step that differ are at least a step apart. -/
theorem add_le_of_dvd_of_lt {a b : Int} (ha : step ∣ a) (hb : step ∣ b) (h : a < b) :
    a + step ≤ b := by
  have hpos : 0 < b - a := by omega
  have hle := Int.le_of_dvd hpos (Int.dvd_sub hb ha)
  omega

variable (hstep : 0 < step)

include hstep

theorem floorTo_le (x : Int) : floorTo step x ≤ x := by
  have h := Int.emod_nonneg x hstep.ne'
  rw [floorTo_eq_sub]
  omega

theorem lt_floorTo_add (x : Int) : x < floorTo step x + step := by
  have h := Int.emod_lt_of_pos x hstep
  rw [floorTo_eq_sub]
  omega

/-- Rounding down does not cross a multiple of the step. -/
theorem le_floorTo_iff {m : Int} (hm : step ∣ m) (x : Int) : m ≤ floorTo step x ↔ m ≤ x := by
  constructor
  · intro h
    exact h.trans (floorTo_le hstep x)
  · intro h
    obtain ⟨k, rfl⟩ := hm
    have hk : k ≤ x / step := (Int.le_ediv_iff_mul_le hstep).mpr (by rwa [Int.mul_comm])
    have hmul := mul_le_mul_of_nonneg_right hk hstep.le
    unfold floorTo
    rwa [Int.mul_comm step k]

theorem floorTo_lt_iff {m : Int} (hm : step ∣ m) (x : Int) : floorTo step x < m ↔ x < m := by
  have h := le_floorTo_iff hstep hm x
  omega

end FloorTo

end TimeLake.Library
