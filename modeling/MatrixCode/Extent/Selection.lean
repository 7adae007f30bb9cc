import MatrixCode.Extent.Basic
import MatrixCode.Matrix.Progression

/-!
Selections: extents resolved to numbers, given the values of their variables and
the length of the dimension.
-/

namespace MatrixCode

inductive Selection where
  | block (start stop : Nat)
  | listed (indices : List Nat)
  deriving DecidableEq, Repr

namespace Selection

def size : Selection → Nat
  | block start stop => stop - start
  | listed indices => indices.length

def indices : Selection → List Nat
  | block start stop => List.range' start (stop - start)
  | listed indices => indices

end Selection

/-- A kernel's outcome, reported for the extent that needed it. -/
def Extent.checked {α : Type} (result : Except Fault α) : Outcome α :=
  result.mapError (.ofFault "extent")

namespace Endpoint

variable (length : Nat) (value : Handle → Outcome Int64)

def resolve : Endpoint → Outcome Nat
  | zero => return 0
  | one => return 1
  | .value h => do Extent.checked (Progression.toIndex (← value h))
  | past h => do Extent.checked (Progression.toIndexAfter (← value h))
  | .length => return length

end Endpoint

namespace Part

variable (length : Nat) (value : Handle → Outcome Int64)

def valueOr (default : Int64) : Option Handle → Outcome Int64
  | none => return default
  | some h => value h

def resolve : Part → Outcome (List Nat)
  | single h => do return [← Extent.checked (Progression.toIndex (← value h))]
  | span first step last => do
    let step ← valueOr value 1 step
    let first ← value first
    let last ← value last
    Extent.checked (Progression.sequence first step last)
  | toEnd first step => do
    let first ← valueOr value 0 first
    let step ← valueOr value 1 step
    Extent.checked (Progression.sequenceTo first step length)

end Part

namespace Extent

def resolve (length : Nat) (value : Handle → Outcome Int64) : Extent → Outcome Selection
  | block start stop => do
    return .block (← start.resolve length value) (← stop.resolve length value)
  | listed parts => do
    return .listed (← parts.mapM (Part.resolve length value)).flatten

end Extent

inductive Region where
  | flat (elements : Selection)
  | grid (rows cols : Selection)
  deriving DecidableEq, Repr

namespace Region

def rows : Region → Selection
  | flat _ => .block 0 1
  | grid rows _ => rows

def cols : Region → Selection
  | flat elements => elements
  | grid _ cols => cols

def isFlat : Region → Bool
  | flat _ => true
  | grid .. => false

end Region

namespace Addressing

def resolve (rows cols : Nat) (value : Handle → Outcome Int64) : Addressing → Outcome Region
  | flat elements => return .flat (← elements.resolve (rows * cols) value)
  | grid r c => return .grid (← r.resolve rows value) (← c.resolve cols value)

end Addressing
end MatrixCode
