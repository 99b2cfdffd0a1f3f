/-!
# Limits

The two numbers that keep work on expression trees bounded: how deeply a text may nest, and how
many normalization passes one side of an equation may take. The same limits are handed to the
reader, to the normalizer and to the exact oracle.
-/

namespace EquationSteps

/-- The limits under which texts are read and trees are normalized. -/
structure Limits where
  /-- The deepest nesting that the reader accepts. -/
  depth : Nat
  /-- The number of normalization passes after which a tree counts as not settling. -/
  passes : Nat
  deriving DecidableEq

/-- The limits in force when none are given. -/
def Limits.standard : Limits :=
  ⟨64, 256⟩

end EquationSteps
