/-!
# Kinds of convex functions

The convex functions that expressions may apply, sorted by how a constraint on them is
brought into conic form: by linear rows, by second-order cones, or not at all.

## Main definitions

* `PiecewiseKind`, `ConicKind`, `ConvexKind`: the functions
* `ConvexKind.elementwise`: the functions that map each element on its own
* `Curvature`: a function or its negation
-/

namespace ConicForm

/-- The functions whose epigraph is described by linear rows. -/
inductive PiecewiseKind where
  /-- The absolute value of each element. -/
  | abs
  /-- The sum of the absolute values. -/
  | norm1
  /-- The largest absolute value. -/
  | normInf
  deriving DecidableEq, Repr

/-- The functions whose epigraph is described by second-order cones. -/
inductive ConicKind where
  /-- The Euclidean norm. -/
  | norm2
  /-- The square of each element. -/
  | square
  /-- The sum of the squares. -/
  | sumSquares
  deriving DecidableEq, Repr

/-- The functions that an expression may apply. -/
inductive ConvexKind where
  | piecewise (kind : PiecewiseKind)
  | conic (kind : ConicKind)
  /-- The exponential of each element, which no second-order cone describes. -/
  | exp
  deriving DecidableEq, Repr

namespace PiecewiseKind

/-- The name of a function, as in messages. -/
def name : PiecewiseKind → String
  | abs => "Abs"
  | norm1 => "Norm1"
  | normInf => "NormInf"

/-- Whether the function maps each element on its own. -/
def elementwise : PiecewiseKind → Bool
  | abs => true
  | norm1 | normInf => false

end PiecewiseKind

namespace ConicKind

/-- The name of a function, as in messages. -/
def name : ConicKind → String
  | norm2 => "Norm2"
  | square => "Square"
  | sumSquares => "SumSquares"

/-- Whether the function maps each element on its own. -/
def elementwise : ConicKind → Bool
  | square => true
  | norm2 | sumSquares => false

/-- Whether the function squares. A constraint on such a function keeps its bound
negated. -/
def squared : ConicKind → Bool
  | norm2 => false
  | square | sumSquares => true

end ConicKind

namespace ConvexKind

/-- The name of a function, as in messages. -/
def name : ConvexKind → String
  | piecewise k => k.name
  | conic k => k.name
  | exp => "Exp"

/-- The letter of a function. -/
def code : ConvexKind → Char
  | piecewise .abs => 'A'
  | piecewise .norm1 => 'M'
  | piecewise .normInf => 'I'
  | conic .norm2 => 'E'
  | conic .square => 'S'
  | conic .sumSquares => 'Q'
  | exp => 'X'

/-- Whether the function maps each element on its own. -/
def elementwise : ConvexKind → Bool
  | piecewise k => k.elementwise
  | conic k => k.elementwise
  | exp => true

/-- Whether the function squares. -/
def squared : ConvexKind → Bool
  | conic k => k.squared
  | _ => false

end ConvexKind

/-- Whether an expression carries a function itself or its negation. -/
inductive Curvature where
  | convex
  | concave
  deriving DecidableEq, Repr

namespace Curvature

/-- The curvature of the negated expression. -/
def flip : Curvature → Curvature
  | convex => concave
  | concave => convex

end Curvature

end ConicForm
