import MatrixCode.Matrix.Bidiagonal
import MatrixCode.Matrix.Echelon
import MatrixCode.Matrix.Factor

/-!
Singular values, and what is built on them: pseudo-inverses, least squares and
the induced 2-norm. A matrix is divided by its greatest magnitude, so that the
rounding level of the decomposition is relative to it; singular values up to
`epsilon` then count as zero. A matrix without elements has no such decomposition,
and singular values that are not numbers have no order.
-/

namespace MatrixCode
namespace Matrix

/-- The greatest magnitude of an element, as `maximum` has it: the last element decides
when it is not a number. -/
def magnitude (a : Matrix Float) : Float := maximum (a.byColumns.map Float.abs)

/-- Singular values and the singular vectors that go with them, as columns: the matrix
is the sum of the products of value, left vector and right vector. -/
structure Singular where
  values : List Float
  left : Matrix Float
  right : Matrix Float

namespace Singular

/-- Turns left vectors so that no value is negative. -/
def positive (s : Singular) : Singular where
  values := s.values.map fun x => if x < 0.0 then -x else x
  left := build s.left.rows s.left.cols fun i k =>
    if s.values.getD k 0.0 < 0.0 then -s.left.entry i k else s.left.entry i k
  right := s.right

/-- The decomposition of a matrix at least as high as wide, with values times `scale`. -/
def ofTall (a : Matrix Float) (scale : Float) : Singular :=
  let b := (Bidiagonal.ofTall a).diagonalize
  ⟨b.diagonal.map (· * scale), b.left, b.right⟩

/-- The decomposition of a matrix; a wide matrix goes through its transpose. -/
def decompose (a : Matrix Float) : Except Fault Singular :=
  if a.isEmpty then throw .noDecomposition
  else
    let scale := a.magnitude
    let a := if scale == 0.0 then a else a.map (· / scale)
    if a.cols ≤ a.rows then return (ofTall a scale).positive
    else
      let s := ofTall a.transpose scale
      return positive ⟨s.values, s.right, s.left⟩

/-- The decomposition with the greatest value first. -/
def ordered (s : Singular) : Except Fault Singular :=
  if 1 < s.values.length ∧ s.values.any Float.isNaN then throw .noDecomposition
  else
    let order := (s.values.zipIdx.mergeSort fun x y => y.1 ≤ x.1).map Prod.snd
    let arrange (m : Matrix Float) := build m.rows m.cols fun i k => m.entry i (order.getD k 0)
    return ⟨order.map fun k => s.values.getD k 0.0, arrange s.left, arrange s.right⟩

def pseudoInverse (s : Singular) : Matrix Float :=
  let scaled := build s.left.rows s.left.cols fun i k =>
    let value := s.values.getD k 0.0
    s.left.entry i k * (if epsilon < value then 1.0 / value else 0.0)
  (product scaled s.right.transpose).transpose

/-- The shortest vector of least distance for each column of `b`. -/
def leastSquares (s : Singular) (b : Matrix Float) : Matrix Float :=
  let coordinates := build s.values.length b.cols fun k j =>
    let value := s.values.getD k 0.0
    if epsilon < value then total (List.zipWith (· * ·) (s.left.column k) (b.column j)) / value
    else 0.0
  build s.right.rows b.cols fun i j =>
    total (List.zipWith (· * ·) (s.right.row i) (coordinates.column j))

end Singular

def pinv (a : Matrix Float) : Except Fault (Matrix Float) := do
  return (← Singular.decompose a).pseudoInverse

/-- The reciprocal of a number, or zero when the number counts as zero. -/
def pinvScalar (x : Float) : Float := if x.abs ≤ epsilon then 0.0 else 1.0 / x

/-- Solves a square system, or a least squares problem otherwise. -/
def solve (a b : Matrix Float) : Except Fault (Matrix Float) := do
  if a.rows ≠ b.rows then throw (mismatch "solve" a b)
  if a.isSquare then
    match a.factors.solve? b with
    | some x => return x
    | none => throw .singular
  else return (← (← Singular.decompose a).ordered).leastSquares b

/-- The larger number; what is not a number is passed over. -/
def largerNumber (x y : Float) : Float := if y.isNaN ∨ y ≤ x then x else y

def vectorNorm (a : Matrix Float) (order : Float) : Float :=
  if order.isInf then (a.byColumns.map Float.abs).foldl largerNumber 0.0
  else (neutralTotal (a.byColumns.map fun x => x.abs.pow order)).pow (1.0 / order)

/-- The norm of given order of a vector, or the induced 1, 2 and infinity norm of
a matrix. -/
def normP (a : Matrix Float) (order : Float) : Except Fault Float := do
  if a.isVector then return a.vectorNorm order
  let size := a.map Float.abs
  if order == 1.0 then return maximum (sumColumns size).byColumns
  else if order == 2.0 then return maximum (← (← Singular.decompose a).ordered).values
  else if order.isInf then return maximum (sumRows size).byColumns
  else throw (.unsupportedNorm order)

end Matrix
end MatrixCode
