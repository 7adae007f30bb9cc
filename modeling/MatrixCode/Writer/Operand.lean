import MatrixCode.Instruction.Basic

/-!
The writer puts a program into the text of a function body that calls a library
of kernels. This module writes operands. The output of the function is a mutable
reference, its other matrices are references, and temporaries are local.
-/

namespace MatrixCode

structure Writer where
  /-- The path of the kernel library. -/
  kernels : String
  /-- What every statement starts with. -/
  indent : String
  /-- The variable that the function returns its result in. -/
  output : Option Handle
  deriving DecidableEq, Repr

/-- How a variable occurs in the function. -/
inductive Role where
  | literal
  | temporary
  | input
  | output
  deriving DecidableEq, Repr

namespace Writer

def defaultKernels : String := "mateq::kernels"

def defaultIndent : String := "    "

def standard : Writer := ⟨defaultKernels, defaultIndent, none⟩

variable (w : Writer) (t : Table)

def role (h : Handle) (v : Variable) : Role :=
  if v.isLiteral then .literal
  else if v.temporary then .temporary
  else if some h = w.output then .output
  else .input

def inParentheses (text : String) : String := "(" ++ text ++ ")"

/-- A scalar in its own type, in parentheses when its level is below the context. -/
def scalar (h : Handle) (context : Nat) : Outcome String := do
  let v ← t.fetch h
  match w.role h v with
  | .literal => return v.operandIn context
  | .output =>
    return if Precedence.unary < context then inParentheses ("*" ++ v.name) else "*" ++ v.name
  | .temporary | .input => return v.name

def double (h : Handle) (context : Nat) : Outcome String := do
  let v ← t.fetch h
  if v.kind ≠ .integer then w.scalar t h context
  else
    match v.literalInteger? with
    | some x =>
      let text := NumberText.literal (Binary.ofInt x.toInt)
      return if x < 0 ∧ Precedence.unary < context then inParentheses text else text
    | none => return inParentheses ((← w.scalar t h Precedence.atom) ++ " as f64")

def index (h : Handle) : Outcome String := do
  let v ← t.fetch h
  let text ← w.scalar t h Precedence.atom
  return if v.kind = .double then inParentheses (text ++ " as i64") else text

/-- A matrix that is read. -/
def reference (h : Handle) : Outcome String := do
  let v ← t.fetch h
  match w.role h v with
  | .temporary => return "&" ++ v.name
  | .output => return "&*" ++ v.name
  | .literal | .input => return v.name

/-- A matrix that is written into. -/
def mutable (h : Handle) : Outcome String := do
  let v ← t.fetch h
  return if w.role h v = .temporary then "&mut " ++ v.name else "&mut *" ++ v.name

/-- A matrix that a method is called on. -/
def receiver (h : Handle) : Outcome String := Variable.name <$> t.fetch h

def leftSide (h : Handle) : Outcome String := do
  let v ← t.fetch h
  return if w.role h v = .output then "*" ++ v.name else v.name

def path (function : String) : String := w.kernels ++ "::" ++ function

def commaSeparated (texts : List String) : String := ", ".intercalate texts

/-- A call, with a mark when it can fail. -/
def call (function : String) (arguments : List String) (fallible : Bool) : String :=
  function ++ inParentheses (commaSeparated arguments) ++ if fallible then "?" else ""

end Writer
end MatrixCode
