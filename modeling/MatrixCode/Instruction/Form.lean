import MatrixCode.Instruction.Primitive
import MatrixCode.Variable.Kind

/-!
Forms: which signature of a primitive fits operands of given kinds, what kind the
result has, and which dimensions of the operands give its shape. Operands without
a form make no sense together.
-/

namespace MatrixCode

structure Form where
  primitive : Primitive
  signature : Signature
  /-- The kind of the result. -/
  kind : Kind
  dimensions : List Dimension
  deriving DecidableEq, Repr

namespace Form

def likeLeft : List Dimension := [.leftRows, .leftCols]

def likeRight : List Dimension := [.rightRows, .rightCols]

/-- The shape of the first operand with rows and columns exchanged. -/
def transposed : List Dimension := [.leftCols, .leftRows]

/-- The rows of the first and the columns of the second operand. -/
def outer : List Dimension := [.leftRows, .rightCols]

def unary? (p : Primitive) (kind : Kind) : Option Form :=
  match p, kind with
  | .negate, .matrix | .abs, .matrix => some ⟨p, .m, .matrix, likeLeft⟩
  | .negate, .integer | .abs, .integer => some ⟨p, .i, .integer, []⟩
  | .negate, .double | .abs, .double => some ⟨p, .s, .double, []⟩
  | .transpose, .matrix => some ⟨p, .m, .matrix, transposed⟩
  | .inverse, .matrix | .echelon, .matrix => some ⟨p, .m, .matrix, likeLeft⟩
  | .pseudoInverse, .matrix => some ⟨p, .m, .matrix, transposed⟩
  | .determinant, .matrix | .normF, .matrix | .sum, .matrix | .trace, .matrix =>
    some ⟨p, .m, .double, []⟩
  | .inverse, .integer | .inverse, .double | .echelon, .integer | .echelon, .double
  | .pseudoInverse, .integer | .pseudoInverse, .double | .determinant, .integer
  | .determinant, .double | .normF, .integer | .normF, .double | .sum, .integer
  | .sum, .double => some ⟨p, .s, .double, []⟩
  | .maximum, .matrix | .minimum, .matrix => some ⟨p, .m, .double, []⟩
  | .maximum, .integer | .minimum, .integer => some ⟨p, .i, .integer, []⟩
  | .maximum, .double | .minimum, .double => some ⟨p, .s, .double, []⟩
  | .maximumOfRows, .matrix | .maximumOfColumns, .matrix | .minimumOfRows, .matrix
  | .minimumOfColumns, .matrix | .sumOfRows, .matrix | .sumOfColumns, .matrix =>
    some ⟨p, .bare, .matrix, []⟩
  | .sqrt, .matrix | .sin, .matrix | .cos, .matrix | .atan, .matrix | .exp, .matrix
  | .log, .matrix => some ⟨p, .m, .matrix, likeLeft⟩
  | .sqrt, .integer | .sin, .integer | .cos, .integer | .atan, .integer | .exp, .integer
  | .log, .integer => some ⟨p, .i, .double, []⟩
  | .sqrt, .double | .sin, .double | .cos, .double | .atan, .double | .exp, .double
  | .log, .double => some ⟨p, .s, .double, []⟩
  | .eye, .integer => some ⟨p, .i, .matrix, []⟩
  | .eye, .matrix => some ⟨p, .m, .matrix, likeLeft⟩
  | .diagonal, .matrix => some ⟨p, .m, .matrix, []⟩
  | .reseed, .integer => some ⟨p, .i, .integer, []⟩
  | _, _ => none

/-- The combinations of kinds that the forms with two operands tell apart. -/
def pairing : Kind → Kind → Option Signature
  | .matrix, .matrix => some .mm
  | .integer, .integer => some .ii
  | .integer, .double | .double, .integer | .double, .double => some .ss
  | .matrix, .integer | .matrix, .double => some .ms
  | .integer, .matrix | .double, .matrix => some .sm
  | .sequence, _ | _, .sequence => none

def binary? (p : Primitive) (left right : Kind) : Option Form := do
  match p, ← pairing left right with
  | .add, .mm | .subtract, .mm => some ⟨p, .mm, .matrix, likeLeft⟩
  | .multiply, .mm => some ⟨p, .mm, .matrix, outer⟩
  | .add, .ii | .subtract, .ii | .multiply, .ii | .divide, .ii => some ⟨p, .ii, .integer, []⟩
  | .add, .ss | .subtract, .ss | .multiply, .ss | .divide, .ss => some ⟨p, .ss, .double, []⟩
  | .add, .ms | .subtract, .ms | .multiply, .ms | .divide, .ms => some ⟨p, .ms, .matrix, likeLeft⟩
  | .add, .sm | .subtract, .sm | .multiply, .sm => some ⟨p, .sm, .matrix, likeRight⟩
  | .elementMultiply, .mm | .elementDivide, .mm => some ⟨p, .mm, .matrix, likeLeft⟩
  | .elementDivide, .sm => some ⟨p, .sm, .matrix, likeRight⟩
  | .elementPower, .mm => some ⟨p, .mm, .matrix, likeLeft⟩
  | .elementPower, .ms => some ⟨p, .ms, .matrix, likeLeft⟩
  | .elementPower, .sm => some ⟨p, .sm, .matrix, likeRight⟩
  | .elementPower, .ss | .elementPower, .ii => some ⟨p, .ss, .double, []⟩
  | .normP, .ms => some ⟨p, .ms, .double, []⟩
  | .normP, .ss | .normP, .ii => some ⟨p, .ss, .double, []⟩
  | .kronecker, .mm | .solve, .mm => some ⟨p, .bare, .matrix, []⟩
  | .dot, .mm => some ⟨p, .bare, .double, []⟩
  | .atan2, .ss | .atan2, .ii => some ⟨p, .ss, .double, []⟩
  | .zeros, .ii | .ones, .ii | .uniform, .ii | .normal, .ii => some ⟨p, .ii, .matrix, []⟩
  | _, _ => none

/-- Copies of a whole variable: the signature for source and target. -/
def copy? : Kind → Kind → Option Form
  | .matrix, .matrix => some ⟨.copy, .mm, .matrix, likeLeft⟩
  | .integer, .integer => some ⟨.copy, .ii, .integer, []⟩
  | .integer, .double | .double, .double => some ⟨.copy, .ss, .double, []⟩
  | .matrix, .double => some ⟨.copy, .sm1, .double, []⟩
  | _, _ => none

def copyRange? : Kind → Kind → Option Form
  | .matrix, .matrix => some ⟨.copy, .mm, .matrix, []⟩
  | .integer, .matrix | .double, .matrix => some ⟨.copy, .sm, .matrix, []⟩
  | _, _ => none

end Form
end MatrixCode
