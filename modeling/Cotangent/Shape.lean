/-!
Shapes of matrices: the numbers of rows and columns.
-/

namespace Cotangent

/-- Numbers of rows and columns. -/
abbrev Shape := Nat × Nat

def Shape.toList (s : Shape) : List Nat := [s.1, s.2]

/-- The number of entries of a matrix of this shape. -/
def Shape.elements (s : Shape) : Nat := s.1 * s.2

end Cotangent
