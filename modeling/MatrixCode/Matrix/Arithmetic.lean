import MatrixCode.Matrix.Basic
import MatrixCode.Matrix.Fault

/-!
Sums, products and element-wise arithmetic. Each operation comes in two forms:
one makes a new matrix, the other writes into a target that must already have
the right shape. The entries are the same formulas in both.
-/

namespace MatrixCode
namespace Matrix

variable {α : Type} [Inhabited α]

def mismatch (op : String) (a b : Matrix α) : Fault :=
  .dimensionMismatch op a.rows a.cols b.rows b.cols

def checkSameShape (op : String) (a b : Matrix α) : Except Fault Unit :=
  if a.shape = b.shape then pure () else throw (mismatch op a b)

/-- The target of a write must have the shape of the result. -/
def checkTarget (op : String) (target : Matrix α) (rows cols : Nat) : Except Fault Unit :=
  if target.shape = (rows, cols) then pure ()
  else throw (.dimensionMismatch op target.rows target.cols rows cols)

/-- A sum that starts with its first term, so that no zero is added to it. -/
def sumFromFirst (add : α → α → α) (zero : α) : List α → α
  | [] => zero
  | x :: xs => xs.foldl add x

/-- Products in which all three dimensions exceed this bound are summed from zero. -/
def blockedAbove : Nat := 5

def productEntry (add mul : α → α → α) (zero : α) (a b : Matrix α) (i j : Nat) : α :=
  let terms := (List.range a.cols).map fun k => mul (a.entry i k) (b.entry k j)
  if blockedAbove < a.rows ∧ blockedAbove < b.cols ∧ blockedAbove < a.cols then
    terms.foldl add zero
  else sumFromFirst add zero terms

def product (a b : Matrix Float) : Matrix Float :=
  build a.rows b.cols (productEntry (· + ·) (· * ·) 0.0 a b)

/-- An operation on entries, for matrices of one shape. -/
def entrywise (name : String) (op : Float → Float → Float) (a b : Matrix Float) :
    Except Fault (Matrix Float) := do
  checkSameShape name a b
  return zipWith op a b

def add (a b : Matrix Float) : Except Fault (Matrix Float) := entrywise "add" (· + ·) a b

def subtract (a b : Matrix Float) : Except Fault (Matrix Float) := entrywise "subtract" (· - ·) a b

def checkInner (a b : Matrix Float) : Except Fault Unit :=
  if a.cols = b.rows then pure () else throw (mismatch "multiply" a b)

def multiply (a b : Matrix Float) : Except Fault (Matrix Float) := do
  checkInner a b
  return product a b

def elementMultiply (a b : Matrix Float) : Except Fault (Matrix Float) :=
  entrywise "elementMult" (· * ·) a b

def elementDivide (a b : Matrix Float) : Except Fault (Matrix Float) :=
  entrywise "elementDivision" (· / ·) a b

def elementPower (a b : Matrix Float) : Except Fault (Matrix Float) :=
  entrywise "elementPow" Float.pow a b

def scalarOverElements (s : Float) (a : Matrix Float) : Matrix Float := a.map (s / ·)

def elementPowerScalar (a : Matrix Float) (s : Float) : Matrix Float := a.map (Float.pow · s)

def scalarPowerElements (s : Float) (a : Matrix Float) : Matrix Float := a.map (Float.pow s)

def addScalar (a : Matrix Float) (s : Float) : Matrix Float := a.map (· + s)

def scalarMinus (s : Float) (a : Matrix Float) : Matrix Float := a.map (s - ·)

/-- Subtraction is addition of the opposite. -/
def subtractScalar (a : Matrix Float) (s : Float) : Matrix Float := addScalar a (-s)

def scale (a : Matrix Float) (s : Float) : Matrix Float := a.map (· * s)

def divideScalar (a : Matrix Float) (s : Float) : Matrix Float := a.map (· / s)

def negate (a : Matrix Float) : Matrix Float := a.map (-·)

def kron (a b : Matrix Float) : Matrix Float :=
  build (a.rows * b.rows) (a.cols * b.cols) fun i j =>
    a.entry (i / b.rows) (j / b.cols) * b.entry (i % b.rows) (j % b.cols)

/-! Forms that write into a target. The operands are checked before the target. -/

def entrywiseInto (name : String) (op : Float → Float → Float) (a b target : Matrix Float) :
    Except Fault (Matrix Float) := do
  checkSameShape name a b
  checkTarget name target a.rows a.cols
  return zipWith op a b

def addInto (a b target : Matrix Float) : Except Fault (Matrix Float) :=
  entrywiseInto "add" (· + ·) a b target

def subtractInto (a b target : Matrix Float) : Except Fault (Matrix Float) :=
  entrywiseInto "subtract" (· - ·) a b target

def multiplyInto (a b target : Matrix Float) : Except Fault (Matrix Float) := do
  checkInner a b
  checkTarget "multiply" target a.rows b.cols
  return product a b

def elementMultiplyInto (a b target : Matrix Float) : Except Fault (Matrix Float) :=
  entrywiseInto "elementMult" (· * ·) a b target

def elementDivideInto (a b target : Matrix Float) : Except Fault (Matrix Float) :=
  entrywiseInto "elementDivision" (· / ·) a b target

def transposeInto (a target : Matrix Float) : Except Fault (Matrix Float) := do
  checkTarget "transpose" target a.cols a.rows
  return a.transpose

def copyInto (a target : Matrix Float) : Except Fault (Matrix Float) := do
  checkTarget "copy" target a.rows a.cols
  return a

end Matrix
end MatrixCode
