import Mathlib.Algebra.Group.Int.Defs
import Mathlib.Algebra.Group.Nat.Defs

/-! # The Type `int`

    Values of type `int` are integers.  A result that is stored in an `int` is wrapped
    around by `to_int`; a result in the range of the type is stored as it is.
-/

namespace CInt

abbrev INT_MIN : ℤ := -2147483648
abbrev INT_MAX : ℤ := 2147483647

/-- The value is one of type `int`. -/
def is_int (x : ℤ) : Prop := INT_MIN ≤ x ∧ x ≤ INT_MAX

instance decidable_is_int (x : ℤ) : Decidable (is_int x) :=
  inferInstanceAs (Decidable (INT_MIN ≤ x ∧ x ≤ INT_MAX))

/-- Conversion to `int`. -/
def to_int (x : ℤ) : ℤ := Int.bmod x (2 ^ 32)

theorem to_int_le (x : ℤ) : to_int x ≤ INT_MAX := by
  have hlt : to_int x < (2 ^ 32 + 1) / 2 := Int.bmod_lt (by decide)
  unfold INT_MAX
  omega

theorem to_int_eq {x : ℤ} (hmin : INT_MIN ≤ x) (hmax : x ≤ INT_MAX) : to_int x = x := by
  unfold INT_MIN at hmin
  unfold INT_MAX at hmax
  apply Int.bmod_eq_of_le <;> omega

theorem to_int_of_nonneg {x : ℤ} (hmin : 0 ≤ x) (hmax : x < 2 ^ 31) : to_int x = x := by
  apply to_int_eq
  · unfold INT_MIN
    omega
  · unfold INT_MAX
    omega

end CInt
