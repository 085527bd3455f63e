import Mathlib.Data.Int.Notation

/-! # The `int` of C

An `int` is an integer of 32 bits with a sign.  An operation whose result does not fit has no result. -/

namespace CInt

/-- The result of an operation. -/
def result (z : ℤ) : Option ℤ := if -2147483648 ≤ z ∧ z ≤ 2147483647 then some z else none

variable {z : ℤ}

theorem result_eq (h : -2147483648 ≤ z ∧ z ≤ 2147483647) : result z = some z := if_pos h

theorem result_eq_none (h : 2147483647 < z) : result z = none :=
  if_neg fun h' => absurd h'.2 (Int.not_le.mpr h)

end CInt
