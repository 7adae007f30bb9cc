/-!
The first and second half of an operation's name: the primitive, and the kinds
of operands that it was chosen for.
-/

namespace MatrixCode

inductive Primitive where
  | add
  | subtract
  | multiply
  | divide
  | negate
  | elementMultiply
  | elementDivide
  | elementPower
  | transpose
  | inverse
  | pseudoInverse
  | echelon
  | determinant
  | trace
  | normF
  | normP
  | kronecker
  | dot
  | solve
  | maximum
  | maximumOfRows
  | maximumOfColumns
  | minimum
  | minimumOfRows
  | minimumOfColumns
  | sum
  | sumOfRows
  | sumOfColumns
  | abs
  | sqrt
  | sin
  | cos
  | atan
  | exp
  | log
  | atan2
  | eye
  | diagonal
  | zeros
  | ones
  | uniform
  | normal
  | reseed
  | assemble
  | copy
  | extract
  | element
  deriving DecidableEq, Repr, Inhabited

namespace Primitive

def all : List Primitive :=
  [add, subtract, multiply, divide, negate, elementMultiply, elementDivide, elementPower,
    transpose, inverse, pseudoInverse, echelon, determinant, trace, normF, normP, kronecker, dot,
    solve, maximum, maximumOfRows, maximumOfColumns, minimum, minimumOfRows, minimumOfColumns, sum,
    sumOfRows, sumOfColumns, abs, sqrt, sin, cos, atan, exp, log, atan2, eye, diagonal, zeros, ones,
    uniform, normal, reseed, assemble, copy, extract, element]

def name : Primitive → String
  | add => "add"
  | subtract => "subtract"
  | multiply => "multiply"
  | divide => "divide"
  | negate => "neg"
  | elementMultiply => "elementMult"
  | elementDivide => "elementDivision"
  | elementPower => "elementPow"
  | transpose => "transpose"
  | inverse => "inv"
  | pseudoInverse => "pinv"
  | echelon => "rref"
  | determinant => "det"
  | trace => "trace"
  | normF => "normF"
  | normP => "normP"
  | kronecker => "kron"
  | dot => "dot"
  | solve => "solve"
  | maximum => "max"
  | maximumOfRows => "max_rows"
  | maximumOfColumns => "max_cols"
  | minimum => "min"
  | minimumOfRows => "min_rows"
  | minimumOfColumns => "min_cols"
  | sum => "sum"
  | sumOfRows => "sum_rows"
  | sumOfColumns => "sum_cols"
  | abs => "abs"
  | sqrt => "sqrt"
  | sin => "sin"
  | cos => "cos"
  | atan => "atan"
  | exp => "exp"
  | log => "log"
  | atan2 => "atan2"
  | eye => "eye"
  | diagonal => "diag"
  | zeros => "zeros"
  | ones => "ones"
  | uniform => "rand"
  | normal => "randn"
  | reseed => "rng"
  | assemble => "matrixConstructor"
  | copy => "copy"
  | extract => "extract"
  | element => "extractScalar"

def ofName? (name : String) : Option Primitive := all.find? fun p => p.name = name

def isBinary : Primitive → Bool
  | add | subtract | multiply | divide | elementMultiply | elementDivide | elementPower | normP
  | kronecker | dot | solve | atan2 | zeros | ones | uniform | normal => true
  | _ => false

/-- Uses or sets the random number generator. -/
def isRandom : Primitive → Bool
  | uniform | normal | reseed => true
  | _ => false

end Primitive

/-- The kinds of operands: `m` is a matrix, `i` an integer, `s` a double or, next
to another operand, any scalar. -/
inductive Signature where
  | mm
  | ii
  | ss
  | ms
  | sm
  | m
  | s
  | i
  /-- A scalar taken from a matrix of one element. -/
  | sm1
  /-- The primitive says it all. -/
  | bare
  deriving DecidableEq, Repr, Inhabited

namespace Signature

def all : List Signature := [mm, ii, ss, ms, sm, m, s, i, sm1, bare]

def suffix : Signature → String
  | mm => "mm"
  | ii => "ii"
  | ss => "ss"
  | ms => "ms"
  | sm => "sm"
  | m => "m"
  | s => "s"
  | i => "i"
  | sm1 => "sm1"
  | bare => ""

def ofSuffix? (suffix : String) : Option Signature := all.find? fun x => x.suffix = suffix

end Signature

/-- A dimension of the first (left) or second (right) operand. -/
inductive Dimension where
  | leftRows
  | leftCols
  | rightRows
  | rightCols
  deriving DecidableEq, Repr, Inhabited

end MatrixCode
