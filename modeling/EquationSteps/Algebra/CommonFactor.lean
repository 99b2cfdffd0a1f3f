/-!
# Common factors

Two integers are reduced by dividing both by their greatest common divisor. Nothing happens where
that divisor is one, nor where both integers are zero.
-/

namespace EquationSteps

/-- What is left of two integers after their greatest common divisor was divided out. -/
structure Reduction where
  /-- The divisor, which is greater than one. -/
  removed : Nat
  /-- What is left of the first integer. -/
  left : Int
  /-- What is left of the second integer. -/
  right : Int
  deriving DecidableEq

/-- Divides two integers by their greatest common divisor, if that is greater than one. -/
def Reduction.of? (a b : Int) : Option Reduction :=
  let divisor := Int.gcd a b
  if 1 < divisor then some ⟨divisor, a / divisor, b / divisor⟩ else none

/-- Two integers are reduced exactly if they share a factor and are not both zero. -/
theorem Reduction.of?_eq_none_iff {a b : Int} : Reduction.of? a b = none ↔ Int.gcd a b ≤ 1 := by
  by_cases h : 1 < Int.gcd a b
  · simp [of?, h]
  · simp [of?, h]
    omega

/-- Multiplying the divisor back in restores the first integer. -/
theorem Reduction.removed_mul_left {a b : Int} {r : Reduction} (h : Reduction.of? a b = some r) :
    r.removed * r.left = a := by
  unfold of? at h
  simp only at h
  split at h
  · cases h
    exact Int.mul_ediv_cancel' (Int.gcd_dvd_left a b)
  · cases h

/-- And likewise the second one. -/
theorem Reduction.removed_mul_right {a b : Int} {r : Reduction} (h : Reduction.of? a b = some r) :
    r.removed * r.right = b := by
  unfold of? at h
  simp only at h
  split at h
  · cases h
    exact Int.mul_ediv_cancel' (Int.gcd_dvd_right a b)
  · cases h

end EquationSteps
