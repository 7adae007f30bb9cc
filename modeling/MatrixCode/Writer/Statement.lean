import MatrixCode.Extent.Expression
import MatrixCode.Program
import MatrixCode.Writer.Scalar

/-!
Statements. An instruction becomes an assignment, a call that writes into a
matrix, or a block of statements. What was written before a failure is kept.
-/

namespace MatrixCode

/-- A computation that writes text. -/
abbrev Emission := ExceptT Failure (StateM String)

/-- An argument of a kernel, by the position of the operand. -/
inductive Argument where
  | matrix (position : Nat)
  | double (position : Nat)
  | integer (position : Nat)
  | index (position : Nat)
  | generator
  deriving DecidableEq, Repr

/-- A call of a kernel. -/
structure KernelCall where
  function : String
  arguments : List Argument
  fallible : Bool
  deriving DecidableEq, Repr

namespace KernelCall

def unary (function : String) (fallible : Bool) : KernelCall := ⟨function, [.matrix 0], fallible⟩

def binary (function : String) (fallible : Bool) : KernelCall :=
  ⟨function, [.matrix 0, .matrix 1], fallible⟩

/-- The kernel for a scalar result of matrices. -/
def scalar? (i : Instruction) : Option KernelCall :=
  match i.primitive, i.signature with
  | .determinant, .m => some (unary "det" true)
  | .trace, .m => some (unary "trace" false)
  | .normF, .m => some (unary "norm_f" false)
  | .maximum, .m => some (unary "max" true)
  | .minimum, .m => some (unary "min" true)
  | .sum, .m => some (unary "sum" false)
  | .normP, .ms => some ⟨"norm_p", [.matrix 0, .double 1], true⟩
  | .dot, .bare => some (binary "dot" true)
  | .element, .bare =>
    match i.inputs.length with
    | 2 => some ⟨"element", [.matrix 0, .index 1], true⟩
    | 3 => some ⟨"element2", [.matrix 0, .index 1, .index 2], true⟩
    | _ => none
  | .copy, .sm1 => some (unary "scalar_of" true)
  | _, _ => none

/-- The kernel for a matrix that is made anew. -/
def matrix? : Primitive → Signature → Option KernelCall
  | .add, .mm => some (binary "add" true)
  | .subtract, .mm => some (binary "subtract" true)
  | .multiply, .mm => some (binary "multiply" true)
  | .elementMultiply, .mm => some (binary "element_mult" true)
  | .elementDivide, .mm => some (binary "element_div" true)
  | .add, .ms => some ⟨"add_scalar", [.matrix 0, .double 1], false⟩
  | .add, .sm => some ⟨"add_scalar", [.matrix 1, .double 0], false⟩
  | .subtract, .ms => some ⟨"subtract_scalar", [.matrix 0, .double 1], false⟩
  | .subtract, .sm => some ⟨"scalar_minus", [.double 0, .matrix 1], false⟩
  | .multiply, .ms => some ⟨"scale", [.matrix 0, .double 1], false⟩
  | .multiply, .sm => some ⟨"scale", [.matrix 1, .double 0], false⟩
  | .divide, .ms => some ⟨"divide_scalar", [.matrix 0, .double 1], false⟩
  | .negate, .m => some (unary "negate" false)
  | .elementDivide, .sm => some ⟨"scalar_div_elements", [.double 0, .matrix 1], false⟩
  | .elementPower, .mm => some (binary "element_pow" true)
  | .elementPower, .ms => some ⟨"element_pow_ms", [.matrix 0, .double 1], false⟩
  | .elementPower, .sm => some ⟨"element_pow_sm", [.double 0, .matrix 1], false⟩
  | .inverse, .m => some (unary "invert" true)
  | .pseudoInverse, .m => some (unary "pinv" true)
  | .echelon, .m => some (unary "rref" false)
  | .kronecker, .bare => some (binary "kron" false)
  | .solve, .bare => some (binary "solve" true)
  | .maximumOfRows, .bare => some (unary "max_rows" false)
  | .maximumOfColumns, .bare => some (unary "max_cols" false)
  | .minimumOfRows, .bare => some (unary "min_rows" false)
  | .minimumOfColumns, .bare => some (unary "min_cols" false)
  | .sumOfRows, .bare => some (unary "sum_rows" false)
  | .sumOfColumns, .bare => some (unary "sum_cols" false)
  | .abs, .m => some (unary "abs" false)
  | .sqrt, .m => some (unary "sqrt" false)
  | .sin, .m => some (unary "sin" false)
  | .cos, .m => some (unary "cos" false)
  | .atan, .m => some (unary "atan" false)
  | .exp, .m => some (unary "exp" false)
  | .log, .m => some (unary "log" false)
  | .eye, .i => some ⟨"eye", [.integer 0], true⟩
  | .eye, .m => some (unary "eye_like" false)
  | .diagonal, .m => some (unary "diag" false)
  | .zeros, .ii => some ⟨"zeros", [.integer 0, .integer 1], true⟩
  | .ones, .ii => some ⟨"ones", [.integer 0, .integer 1], true⟩
  | .uniform, .ii => some ⟨"rand", [.integer 0, .integer 1, .generator], true⟩
  | .normal, .ii => some ⟨"randn", [.integer 0, .integer 1, .generator], true⟩
  | _, _ => none

/-- The kernel that writes into a matrix, and its operands besides that matrix. -/
def into? : Primitive → Option KernelCall
  | .add => some (binary "add_into" true)
  | .subtract => some (binary "subtract_into" true)
  | .multiply => some (binary "multiply_into" true)
  | .elementMultiply => some (binary "element_mult_into" true)
  | .elementDivide => some (binary "element_div_into" true)
  | .transpose => some (unary "transpose_into" true)
  | .copy => some (unary "copy_into" true)
  | _ => none

end KernelCall

namespace Writer

variable (w : Writer) (t : Table)

def line (text : String) : Emission Unit := modify (· ++ w.indent ++ text ++ "\n")

def assignment (left right : String) : String := left ++ " = " ++ right ++ ";"

def argument (i : Instruction) : Argument → Outcome String
  | .matrix position => do w.reference t (← i.input position)
  | .double position => do w.double t (← i.input position) 0
  | .integer position => do w.scalar t (← i.input position) 0
  | .index position => do w.index t (← i.input position)
  | .generator => return "rng"

/-- The call of a kernel; `extra` comes after the operands. -/
def kernelCall (i : Instruction) (c : KernelCall) (extra : List String) : Outcome String := do
  let arguments ← c.arguments.mapM (w.argument t i)
  return call (w.path c.function) (arguments ++ extra) c.fallible

def scalarStatement (i : Instruction) (target : Handle) : Emission Unit := do
  let left ← w.leftSide t target
  match ← w.scalarExpression t i with
  | some e => w.line (assignment left e.text)
  | none =>
    match i.primitive, i.signature with
    | .reseed, .i =>
      let seed ← w.scalar t (← i.input 0) Precedence.atom
      w.line ("rng.reseed(" ++ seed ++ " as u64);")
      w.line (assignment left seed)
    | _, _ =>
      match KernelCall.scalar? i with
      | some c => w.line (assignment left (← w.kernelCall t i c []))
      | none => throw i.unimplemented

def dimension (i : Instruction) : Dimension → Outcome String
  | .leftRows => return (← receiver t (← i.input 0)) ++ ".nrows()"
  | .leftCols => return (← receiver t (← i.input 0)) ++ ".ncols()"
  | .rightRows => return (← receiver t (← i.input 1)) ++ ".nrows()"
  | .rightCols => return (← receiver t (← i.input 1)) ++ ".ncols()"

/-- Shapes the target, then writes into it. -/
def inPlaceStatement (i : Instruction) (target : Handle) : Emission Unit := do
  let [rows, cols] := i.dimensions | throw i.unimplemented
  let rows ← dimension t i rows
  let cols ← dimension t i cols
  w.line ((← receiver t target) ++ ".resize_mut(" ++ commaSeparated [rows, cols, "0.0"] ++ ");")
  let some c := KernelCall.into? i.primitive | throw i.unimplemented
  w.line ((← w.kernelCall t i c [← w.mutable t target]) ++ ";")

/-- How index expressions for a dimension are spelled. -/
def indexStyle (length : String) : IndexStyle := ⟨length, w.kernels, w.index t⟩

def extent (e : Extent) (length : String) : Outcome ExtentText := e.render t (w.indexStyle t length)

/-- The part of a matrix that a range selects. -/
def extraction (i : Instruction) : Outcome String := do
  let some range := i.range | throw i.unimplemented
  let addressing ← Addressing.classify t range
  let a ← i.input 0
  let whole ← receiver t a
  let source ← w.reference t a
  match addressing with
  | .flat elements =>
    let elements ← w.extent t elements (whole ++ ".len()")
    return call (w.path "extract_flat") [source, "&" ++ elements.asList] true
  | .grid rows cols =>
    match ← w.extent t rows (whole ++ ".nrows()"), ← w.extent t cols (whole ++ ".ncols()") with
    | .block r₀ r₁, .block c₀ c₁ => return call (w.path "extract_block") [source, r₀, r₁, c₀, c₁] true
    | rows, cols =>
      return call (w.path "extract_indices") [source, "&" ++ rows.asList, "&" ++ cols.asList] true

def matrixExpression (i : Instruction) : Outcome String := do
  match i.primitive, i.signature with
  | .transpose, .m => return (← receiver t (← i.input 0)) ++ ".transpose()"
  | .extract, .bare => w.extraction t i
  | p, signature =>
    match KernelCall.matrix? p signature with
    | some c => w.kernelCall t i c []
    | none => throw i.unimplemented

/-- A statement that gives a matrix its value. A copy into itself is left out. -/
def matrixStatement (i : Instruction) (target : Handle) : Emission Unit := do
  if i.primitive = .copy ∧ i.inputs.head? = some target then return ()
  else if i.writesInPlace && !i.inputs.contains target then w.inPlaceStatement t i target
  else
    let right ← w.matrixExpression t i
    w.line (assignment (← w.leftSide t target) right)

/-- The source of a copy into a part of a matrix, and the verb of its kernel. -/
def copySource (i : Instruction) (source target : Handle) : Outcome (String × String) := do
  match i.signature with
  | .mm =>
    if source = target then return ("&" ++ (← receiver t target) ++ ".clone()", "insert")
    else return (← w.reference t source, "insert")
  | .sm => return (← w.double t source 0, "fill")
  | _ => throw i.unimplemented

/-- The statements of a copy into a part of a matrix. -/
def copyRangeStatements (i : Instruction) (target : Handle) : Outcome (List String) := do
  let source ← i.input 0
  let some range := i.range | throw i.unimplemented
  let addressing ← Addressing.classify t range
  let whole ← receiver t target
  let written ← w.mutable t target
  let (value, verb) ← w.copySource t i source target
  let write (suffix : String) (indices : List String) : String :=
    call (w.path (verb ++ suffix)) (written :: value :: indices) true ++ ";"
  match addressing with
  | .flat elements =>
    let elements ← w.extent t elements (whole ++ ".len()")
    return [assignment "let idx: Vec<usize>" elements.asList, write "_flat" ["&idx"]]
  | .grid rows cols =>
    match ← w.extent t rows (whole ++ ".nrows()"), ← w.extent t cols (whole ++ ".ncols()") with
    | .block r₀ r₁, .block c₀ c₁ =>
      return [assignment "let rows" (inParentheses (commaSeparated [r₀, r₁])),
        assignment "let cols" (inParentheses (commaSeparated [c₀, c₁])),
        write "_block" ["rows.0", "rows.1", "cols.0", "cols.1"]]
    | rows, cols =>
      return [assignment "let rows: Vec<usize>" rows.asList,
        assignment "let cols: Vec<usize>" cols.asList,
        write "_indices" ["&rows", "&cols"]]

def copyRangeStatement (i : Instruction) (target : Handle) : Emission Unit := do
  let statements ← w.copyRangeStatements t i target
  w.line "\x7b"
  statements.forM fun statement => w.line ("    " ++ statement)
  w.line "\x7d"

def item (h : Handle) : Outcome String := do
  match ← t.fetchKind h with
  | .matrix => return (← receiver t h) ++ ".clone()"
  | .integer | .double => return call (w.path "scalar") [← w.double t h 0] false
  | .sequence => report (.unsupported Primitive.assemble.name [.sequence])

def vector (items : List String) : String := "vec![" ++ commaSeparated items ++ "]"

def assembleStatement (i : Instruction) (target : Handle) : Emission Unit := do
  let some blocks := i.blocks | throw i.unimplemented
  let rows ← blocks.mapM fun row => do
    let items ← row.mapM fun h => (w.item t h : Emission String)
    return vector items
  let left ← w.leftSide t target
  w.line (assignment left (call (w.path "concat") ["&[" ++ commaSeparated rows ++ "]"] true))

def statement (i : Instruction) : Emission Unit := do
  let target ← i.target
  if i.primitive = .copy && i.range.isSome then w.copyRangeStatement t i target
  else if i.primitive = .assemble then w.assembleStatement t i target
  else
    match ← t.fetchKind target with
    | .integer | .double => w.scalarStatement t i target
    | .matrix => w.matrixStatement t i target
    | .sequence => throw i.unimplemented

/-- The declaration of a temporary; other variables need none. -/
def declaration (indent : String) (h : Handle) : Emission Unit := do
  let v ← t.lookup h
  let declare (text : String) : Emission Unit :=
    modify (· ++ indent ++ "let mut " ++ v.name ++ text ++ ";\n")
  if v.temporary then
    match v.kind with
    | .integer => declare ": i64 = 0"
    | .double => declare ": f64 = 0.0"
    | .matrix => declare (" = " ++ w.path "Matrix::zeros" ++ "(0, 0)")
    | .sequence => return ()

def textOf (e : Emission Unit) : Outcome String :=
  match e.run.run "" with
  | (.ok _, text) => .ok text
  | (.error e, _) => .error e

def body (p : Program) : Outcome String := textOf (p.instructions.forM (w.statement t))

end Writer
end MatrixCode
