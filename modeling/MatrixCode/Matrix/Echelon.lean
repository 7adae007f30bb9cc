import MatrixCode.Matrix.Basic

/-!
Reduced row echelon form by elimination with partial pivoting, over any numbers
for which the operations of `Arithmetic` are given. A column without a usable
pivot is cleared in the rows that are left.
-/

namespace MatrixCode

/-- The operations that elimination needs. -/
structure Arithmetic (α : Type) where
  zero : α
  sub : α → α → α
  mul : α → α → α
  div : α → α → α
  isZero : α → Bool
  /-- Too small to divide by. -/
  negligible : α → Bool
  /-- The magnitude of the first is at most that of the second. -/
  atMost : α → α → Bool

/-- Magnitudes up to this one count as zero. -/
def epsilon : Float := 1e-12

/-- Magnitudes of doubles are compared by their bits, which puts what is not a
number above infinity. -/
def Arithmetic.double : Arithmetic Float where
  zero := 0.0
  sub := (· - ·)
  mul := (· * ·)
  div := (· / ·)
  isZero x := x == 0.0
  negligible x := x.abs ≤ epsilon
  atMost x y := x.abs.toBits ≤ y.abs.toBits

namespace Matrix

variable {α : Type} [Inhabited α]

/-- The last row of greatest magnitude in a column, among `row` and the rows listed. -/
def pivotRow (ops : Arithmetic α) (m : Matrix α) (col row : Nat) : List Nat → Nat
  | [] => row
  | r :: rs =>
    pivotRow ops m col (if ops.atMost (m.entry row col) (m.entry r col) then r else row) rs

def clearColumn (ops : Arithmetic α) (m : Matrix α) (lead col : Nat) : Matrix α :=
  build m.rows m.cols fun i j => if lead ≤ i ∧ j = col then ops.zero else m.entry i j

def normalizeRow (ops : Arithmetic α) (m : Matrix α) (row col : Nat) : Matrix α :=
  let pivot := m.entry row col
  build m.rows m.cols fun i j => if i = row then ops.div (m.entry i j) pivot else m.entry i j

/-- Subtracts multiples of a row from all others so that the column vanishes there. -/
def eliminate (ops : Arithmetic α) (m : Matrix α) (row col : Nat) : Matrix α :=
  build m.rows m.cols fun i j =>
    if i = row ∨ ops.isZero (m.entry i col) then m.entry i j
    else ops.sub (m.entry i j) (ops.mul (m.entry i col) (m.entry row j))

/-- Reduces the columns from `col` on; the rows above `lead` have their pivots. -/
def reduceFrom (ops : Arithmetic α) (m : Matrix α) (lead col : Nat) : Nat → Matrix α
  | 0 => m
  | left + 1 =>
    if m.rows ≤ lead then m
    else
      let pivot := pivotRow ops m col lead (List.range' (lead + 1) (m.rows - lead - 1))
      if ops.negligible (m.entry pivot col) then
        reduceFrom ops (clearColumn ops m lead col) lead (col + 1) left
      else
        let swapped := swapRows m lead pivot
        let normal := normalizeRow ops swapped lead col
        reduceFrom ops (eliminate ops normal lead col) (lead + 1) (col + 1) left

def echelon (ops : Arithmetic α) (m : Matrix α) : Matrix α := reduceFrom ops m 0 0 m.cols

def rref (m : Matrix Float) : Matrix Float := echelon .double m

/-- The reduced form of a number: one, unless it counts as zero. -/
def rrefScalar (x : Float) : Float := if x.abs ≤ epsilon then 0.0 else 1.0

end Matrix
end MatrixCode
