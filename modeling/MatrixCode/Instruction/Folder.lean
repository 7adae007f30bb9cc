import MatrixCode.Instruction.Basic

/-!
Folders say what a scalar instruction amounts to, without carrying it out. An
instruction that is folded away leaves a scalar expression in place of its output.
-/

namespace MatrixCode

/-- A scalar expression: its text, and the level that decides on parentheses. -/
structure ScalarText where
  text : String
  precedence : Nat
  deriving DecidableEq, Repr, Inhabited

namespace ScalarText

def integer (value : Int64) : ScalarText :=
  ⟨Word.text value, Precedence.ofSign (value.toInt < 0)⟩

def double (value : Float) : ScalarText :=
  ⟨NumberText.literal value, Precedence.ofSign (Binary.isNegative value)⟩

end ScalarText

/-- The expression that an instruction amounts to; none when it has to be kept. -/
abbrev Folder := Table → Instruction → Outcome (Option ScalarText)

namespace Folder

def declining : Folder := fun _ _ => return none

/-- Fails on every instruction that it is asked about. -/
def refusing : Folder := fun _ i => report (.failed i.opName .refused)

end Folder

namespace Instruction

/-- Folders look at instructions with a scalar output only, and neither at random
numbers nor at ranges. -/
def isScalarTask (i : Instruction) (t : Table) : Outcome Bool :=
  match i.output with
  | some output => return (← t.fetchKind output).isScalar && !i.primitive.isRandom && i.range.isNone
  | none => return false

end Instruction
end MatrixCode
