import MatrixCode.Matrix.Fault
import MatrixCode.Variable.Kind

/-!
Errors of construction and execution. An `Error` is reported to the caller. A
`Failure` is either such an error or the end of the computation: a handle outside
the table was followed, or a decomposition of nothing was asked for.
-/

namespace MatrixCode

inductive Reason where
  | fault (cause : Fault)
  /-- Integer arithmetic without a result. -/
  | noInteger
  | wrongKind (name : String) (holds : Kind) (expected : String)
  | notWhole (value : Float)
  | refused
  | unreadableOptions
  deriving DecidableEq, Repr

namespace Reason

def message : Reason → String
  | fault cause => cause.message
  | noInteger => "integer overflow or division by zero"
  | wrongKind name holds expected => name ++ " holds a " ++ holds.name ++ ", expected " ++ expected
  | notWhole value => NumberText.plain value ++ " is not a whole number"
  | refused => "refused"
  | unreadableOptions => "Failed to parse options"

end Reason

inductive Error where
  /-- The kinds of the operands make no sense together. -/
  | mismatch (op : String) (operands : List Kind)
  /-- The combination is known and not supported. -/
  | unsupported (op : String) (operands : List Kind)
  | unimplemented (op : String)
  | invalidRange (name kind : String)
  | unknownVariable (handle : Handle)
  | failed (op : String) (reason : Reason)
  | unbound (name : String)
  | aliasConflict (name : String) (existing : Kind)
  deriving DecidableEq, Repr

/-- Whom an error concerns: the author of the equation, the author of the
compiler, or the values at run time. -/
inductive Category where
  | user
  | internal
  | runtime
  deriving DecidableEq, Repr

namespace Error

def message : Error → String
  | mismatch op operands => "Type mismatch in " ++ op ++ ": operands " ++ Kind.describe operands
  | unsupported op operands =>
    "Unsupported operand combination in " ++ op ++ ": " ++ Kind.describe operands
  | unimplemented op => "Unimplemented operation: " ++ op
  | invalidRange name kind => "Invalid range operand: " ++ name ++ " is a " ++ kind
  | unknownVariable handle => "Unknown variable handle: " ++ toString handle.index
  | failed op reason => "Operation " ++ op ++ " failed: " ++ reason.message
  | unbound name => "Variable has no value: " ++ name
  | aliasConflict name existing => "Alias " ++ name ++ " already bound as " ++ existing.name

def category : Error → Category
  | mismatch .. | unsupported .. | aliasConflict .. => .user
  | unimplemented .. | invalidRange .. | unknownVariable .. => .internal
  | failed .. | unbound .. => .runtime

def isInternal (e : Error) : Bool := e.category = .internal

end Error

inductive Failure where
  | reported (error : Error)
  /-- A handle outside the variable table was followed. -/
  | dangling (handle : Handle)
  /-- A decomposition that does not exist was asked for. -/
  | noDecomposition
  deriving DecidableEq, Repr

namespace Failure

/-- A kernel's fault, reported for the operation that called it. -/
def ofFault (op : String) : Fault → Failure
  | .noDecomposition => .noDecomposition
  | fault => .reported (.failed op (.fault fault))

end Failure

/-- The outcome of a computation that has no state. -/
abbrev Outcome := Except Failure

/-- Stops with an error that the caller is told. -/
def report {m : Type → Type} {α : Type} [MonadExceptOf Failure m] (error : Error) : m α :=
  throw (.reported error)

end MatrixCode
