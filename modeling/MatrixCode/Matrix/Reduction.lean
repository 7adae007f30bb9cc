import MatrixCode.Matrix.Arithmetic

/-!
Reductions of a matrix to a number, or of its rows and columns to a vector. The
order of the elements is by columns and can be seen in floating point: it decides
how a maximum treats what is not a number.
-/

namespace MatrixCode
namespace Matrix

/-- Folds from the first element; of no elements the result is zero. -/
def foldFirst (f : Float → Float → Float) : List Float → Float
  | [] => 0.0
  | x :: xs => xs.foldl f x

/-- The larger of two numbers; when they do not compare, the second. -/
def larger (x y : Float) : Float := if y ≤ x then x else y

/-- The smaller of two numbers; when they do not compare, the second. -/
def smaller (x y : Float) : Float := if x ≤ y then x else y

def maximum (xs : List Float) : Float := foldFirst larger xs

def minimum (xs : List Float) : Float := foldFirst smaller xs

def total (xs : List Float) : Float := xs.foldl (· + ·) 0.0

/-- A sum from negative zero, the neutral element of addition. -/
def neutralTotal (xs : List Float) : Float := xs.foldl (· + ·) (-0.0)

def maxElement (a : Matrix Float) : Except Fault Float :=
  if a.isEmpty then throw (.empty "max") else return maximum a.byColumns

def minElement (a : Matrix Float) : Except Fault Float :=
  if a.isEmpty then throw (.empty "min") else return minimum a.byColumns

def sum (a : Matrix Float) : Float := total a.byColumns

def reduceRows (f : List Float → Float) (a : Matrix Float) : Matrix Float :=
  build a.rows 1 fun i _ => f (a.row i)

def reduceColumns (f : List Float → Float) (a : Matrix Float) : Matrix Float :=
  build 1 a.cols fun _ j => f (a.column j)

def maxRows (a : Matrix Float) : Matrix Float := reduceRows maximum a

def maxColumns (a : Matrix Float) : Matrix Float := reduceColumns maximum a

def minRows (a : Matrix Float) : Matrix Float := reduceRows minimum a

def minColumns (a : Matrix Float) : Matrix Float := reduceColumns minimum a

def sumRows (a : Matrix Float) : Matrix Float := reduceRows total a

def sumColumns (a : Matrix Float) : Matrix Float := reduceColumns total a

def trace (a : Matrix Float) : Float := neutralTotal a.diagonal

/-- The Frobenius norm. -/
def normF (a : Matrix Float) : Float := (total (a.byColumns.map fun x => x * x)).sqrt

/-- The product of two vectors with the same number of elements. -/
def dot (a b : Matrix Float) : Except Fault Float := do
  if !a.isVector then throw (.notVector "dot" a.rows a.cols)
  if !b.isVector || a.size ≠ b.size then throw (mismatch "dot" a b)
  return neutralTotal (List.zipWith (· * ·) a.byColumns b.byColumns)

def scalarOf (a : Matrix Float) : Except Fault Float :=
  if a.shape = (1, 1) then return a.entry 0 0 else throw (.notScalar a.rows a.cols)

end Matrix
end MatrixCode
