import MatrixCode.Matrix.Arithmetic

/-!
Making matrices: identities, constant matrices, diagonals, and block matrices
from rows of smaller ones.
-/

namespace MatrixCode
namespace Matrix

def dimension (n : Int64) : Except Fault Nat :=
  if 0 ≤ n.toInt then return n.toInt.toNat else throw (.indexOutOfBounds n 0)

/-- Ones on the main diagonal. -/
def identity (rows cols : Nat) : Matrix Float := build rows cols fun i j => if i = j then 1.0 else 0.0

def ofScalar (x : Float) : Matrix Float := fill 1 1 x

def eye (n : Int64) : Except Fault (Matrix Float) := do
  let n ← dimension n
  return identity n n

def eyeLike (a : Matrix Float) : Matrix Float := identity a.rows a.cols

def zeros (rows cols : Int64) : Except Fault (Matrix Float) := do
  return fill (← dimension rows) (← dimension cols) 0.0

def ones (rows cols : Int64) : Except Fault (Matrix Float) := do
  return fill (← dimension rows) (← dimension cols) 1.0

/-- The diagonal matrix of a vector, or the column of a matrix's diagonal. -/
def diag (a : Matrix Float) : Matrix Float :=
  let source := (if a.isVector then a.byColumns else a.diagonal).toArray
  if a.isVector then
    build source.size source.size fun i j => if i = j then source.getD i 0.0 else 0.0
  else build source.size 1 fun i _ => source.getD i 0.0

variable {α : Type} [Inhabited α]

/-- Pastes the items side by side from column `col` on, leaving out those without
elements; each must be as high as the whole. -/
def pasteBeside (whole : Matrix α) (col : Nat) : List (Matrix α) → Except Fault (Matrix α)
  | [] => return whole
  | item :: items =>
    if item.isEmpty then pasteBeside whole col items
    else if item.rows ≠ whole.rows then throw (mismatch "matrixConstructor" whole item)
    else pasteBeside (whole.paste 0 col item) (col + item.cols) items

/-- Pastes the blocks below each other from row `row` on, leaving out those
without elements; each must be as wide as the whole. -/
def pasteBelow (whole : Matrix α) (row : Nat) : List (Matrix α) → Except Fault (Matrix α)
  | [] => return whole
  | block :: blocks =>
    if block.isEmpty then pasteBelow whole row blocks
    else if block.cols ≠ whole.cols then throw (mismatch "matrixConstructor" whole block)
    else pasteBelow (whole.paste row 0 block) (row + block.rows) blocks

/-- Joins the items of one row. Items without elements still count for the width. -/
def joinRow (zero : α) (items : List (Matrix α)) : Except Fault (Matrix α) :=
  let height := (items.map rows).foldl Nat.max 0
  let width := (items.map cols).foldl Nat.add 0
  pasteBeside (fill height width zero) 0 items

def concat (zero : α) (rows : List (List (Matrix α))) : Except Fault (Matrix α) := do
  let blocks ← rows.mapM (joinRow zero)
  let width := (blocks.map Matrix.cols).foldl Nat.max 0
  let height := (blocks.map Matrix.rows).foldl Nat.add 0
  pasteBelow (fill height width zero) 0 blocks

end Matrix
end MatrixCode
