import MatrixCode.Matrix.Assembly

/-!
Determinants, inverses and linear systems. Up to three rows determinants are
closed formulas, and up to four rows so are inverses; beyond that both come from
a triangular factorization with partial pivoting. A matrix is singular when a
determinant or a pivot is exactly zero.
-/

namespace MatrixCode
namespace Matrix

def checkSquare (a : Matrix Float) : Except Fault Unit :=
  if a.isSquare then pure () else throw (.notSquare a.rows a.cols)

/-- The two triangular factors in one matrix, and the row exchanges in order. -/
structure Factors where
  combined : Matrix Float
  exchanges : List (Nat × Nat)

/-- The first row of greatest magnitude in a column, among `row` and the rows listed. -/
def firstGreatest (m : Matrix Float) (col row : Nat) : List Nat → Nat
  | [] => row
  | r :: rs =>
    firstGreatest m col (if (m.entry row col).abs < (m.entry r col).abs then r else row) rs

/-- Divides the column below the diagonal by the pivot and updates the rest. -/
def factorColumn (m : Matrix Float) (k : Nat) : Matrix Float :=
  let reciprocal := 1.0 / m.entry k k
  build m.rows m.cols fun i j =>
    if i ≤ k ∨ j < k then m.entry i j
    else if j = k then m.entry i k * reciprocal
    else m.entry i j - m.entry k j * (m.entry i k * reciprocal)

def factorStep (f : Factors) (k : Nat) : Factors :=
  let m := f.combined
  let pivot := firstGreatest m k k (List.range' (k + 1) (m.rows - k - 1))
  if m.entry pivot k == 0.0 then f
  else if pivot = k then { f with combined := factorColumn m k }
  else ⟨factorColumn (swapRows m k pivot) k, f.exchanges ++ [(k, pivot)]⟩

def factors (a : Matrix Float) : Factors :=
  (List.range (Nat.min a.rows a.cols)).foldl factorStep ⟨a, []⟩

namespace Factors

def determinant (f : Factors) : Float :=
  let pivots := f.combined.diagonal.foldl (· * ·) 1.0
  pivots * (if f.exchanges.length % 2 = 0 then 1.0 else -1.0)

/-- Solves with the lower factor, whose diagonal is one. -/
def forward (f : Factors) (b : Matrix Float) : Matrix Float :=
  (List.range f.combined.rows).foldl
    (fun b k => build b.rows b.cols fun i j =>
      if k < i then b.entry i j - b.entry k j * f.combined.entry i k else b.entry i j) b

def backward (f : Factors) (b : Matrix Float) : Matrix Float :=
  (List.range f.combined.rows).reverse.foldl
    (fun b k => build b.rows b.cols fun i j =>
      let solved := b.entry k j / f.combined.entry k k
      if i = k then solved
      else if i < k then b.entry i j - solved * f.combined.entry i k
      else b.entry i j) b

/-- Solves for each column of `b`; where there is no column, nothing is divided. -/
def solve? (f : Factors) (b : Matrix Float) : Option (Matrix Float) :=
  if 0 < b.cols ∧ f.combined.diagonal.any (· == 0.0) then none
  else
    let exchanged := f.exchanges.foldl (fun b (r, s) => swapRows b r s) b
    some (f.backward (f.forward exchanged))

end Factors

def determinant₂ (a b c d : Float) : Float := a * d - c * b

/-- The determinant of three rows along the first row. -/
def determinant₃ (m : Matrix Float) : Float :=
  let e := m.entry
  e 0 0 * (e 1 1 * e 2 2 - e 2 1 * e 1 2) - e 0 1 * (e 1 0 * e 2 2 - e 2 0 * e 1 2)
    + e 0 2 * (e 1 0 * e 2 1 - e 2 0 * e 1 1)

def determinant (a : Matrix Float) : Float :=
  let e := a.entry
  if a.rows = 0 then 1.0
  else if a.rows = 1 then e 0 0
  else if a.rows = 2 then determinant₂ (e 0 0) (e 0 1) (e 1 0) (e 1 1)
  else if a.rows = 3 then determinant₃ a
  else a.factors.determinant

def det (a : Matrix Float) : Except Fault Float := do
  checkSquare a
  return a.determinant

/-- Entries of the adjugate of three rows: the inverse times the determinant. -/
def adjugate₃ (m : Matrix Float) (i j : Nat) : Float :=
  let e := m.entry
  match i, j with
  | 0, 0 => e 1 1 * e 2 2 - e 2 1 * e 1 2
  | 0, 1 => e 0 2 * e 2 1 - e 2 2 * e 0 1
  | 0, 2 => e 0 1 * e 1 2 - e 1 1 * e 0 2
  | 1, 0 => -(e 1 0 * e 2 2 - e 2 0 * e 1 2)
  | 1, 1 => e 0 0 * e 2 2 - e 2 0 * e 0 2
  | 1, 2 => e 0 2 * e 1 0 - e 1 2 * e 0 0
  | 2, 0 => e 1 0 * e 2 1 - e 2 0 * e 1 1
  | 2, 1 => e 0 1 * e 2 0 - e 2 1 * e 0 0
  | _, _ => e 0 0 * e 1 1 - e 1 0 * e 0 1

/-- The other indices below `n`, in order. -/
def others (n k : Nat) : List Nat := (List.range n).filter (· ≠ k)

/-- The signed determinant that is left of four rows without a row and a column,
as a sum of six signed products. -/
def cofactor₄ (m : Matrix Float) (row col : Nat) : Float :=
  let e := m.entry
  let signed (x : Float) : Float := if (row + col) % 2 = 0 then x else -x
  match others 4 row, others 4 col with
  | [r, s, t], [i, j, k] =>
    sumFromFirst (· + ·) 0.0
      [signed (e r i * e s j * e t k), signed (-(e r i * e t j * e s k)),
        signed (-(e r j * e s i * e t k)), signed (e r j * e t i * e s k),
        signed (e r k * e s i * e t j), signed (-(e r k * e t i * e s j))]
  | _, _ => 0.0

def determinant₄ (m : Matrix Float) : Float :=
  sumFromFirst (· + ·) 0.0 ((List.range 4).map fun i => m.entry i 0 * cofactor₄ m i 0)

/-- The inverse of one to four rows by cofactors. -/
def adjugateInverse? (a : Matrix Float) : Option (Matrix Float) :=
  let e := a.entry
  let d := if a.rows = 4 then determinant₄ a else a.determinant
  let inverse : Nat → Nat → Float := match a.rows with
    | 1 => fun _ _ => 1.0 / d
    | 2 => fun i j =>
      (if i = j then e (1 - i) (1 - j) else -e i j) / d
    | 3 => fun i j => adjugate₃ a i j / d
    | _ => fun i j => cofactor₄ a j i * (1.0 / d)
  if d == 0.0 then none else some (build a.rows a.cols inverse)

def inverse? (a : Matrix Float) : Option (Matrix Float) :=
  if a.rows = 0 then some a
  else if a.rows ≤ 4 then adjugateInverse? a
  else a.factors.solve? (identity a.rows a.rows)

def invert (a : Matrix Float) : Except Fault (Matrix Float) := do
  checkSquare a
  match inverse? a with
  | some x => return x
  | none => throw .singular

end Matrix
end MatrixCode
