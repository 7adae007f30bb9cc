import MatrixCode.Instruction.Folder
import MatrixCode.Machine.Basic

/-!
Folding by running: an instruction on literals is run on an empty machine, and
its value becomes a literal.
-/

namespace MatrixCode
namespace Machine

def isLiteralOperand (t : Table) (h : Handle) : Outcome Bool :=
  return (← t.fetch h).literalDouble?.isSome

/-- True when all operands are scalar literals; stops at the first that is none. -/
def areLiterals (t : Table) : List Handle → Outcome Bool
  | [] => return true
  | h :: hs => do if ← isLiteralOperand t h then areLiterals t hs else return false

/-- The literal of a value; numbers that are not finite have none. -/
def literal? : Value → Option ScalarText
  | .integer x => some (.integer x)
  | .double x => if x.isFinite then some (.double x) else none
  | .matrix _ => none

def fold : Folder := fun t i => do
  if ← i.isScalarTask t then
    if ← areLiterals t i.inputs then return literal? (← i.evaluate t .initial).value
  return none

end Machine
end MatrixCode
