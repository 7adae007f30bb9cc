import MatrixCode.Instruction.Primitive
import MatrixCode.Matrix.Singular
import MatrixCode.Number.Word

/-!
Scalar arithmetic by primitive: checked arithmetic on words, and functions on
doubles.
-/

namespace MatrixCode
namespace Primitive

/-- Integer results of integer operands; none where arithmetic leaves the range
of a word, divides by zero, or the primitive has no integer result. -/
def onWords : Primitive → List Int64 → Option Int64
  | add, [a, b] => Word.add? a b
  | subtract, [a, b] => Word.sub? a b
  | multiply, [a, b] => Word.mul? a b
  | divide, [a, b] => Word.div? a b
  | negate, [a] => Word.neg? a
  | abs, [a] => Word.abs? a
  | maximum, [a] | minimum, [a] | copy, [a] => some a
  | _, _ => none

def onDouble (x : Float) : Primitive → Signature → Option Float
  | copy, .ss => some x
  | normP, .ss => some x.abs
  | negate, .s => some (-x)
  | inverse, .s => some (1.0 / x)
  | pseudoInverse, .s => some (Matrix.pinvScalar x)
  | echelon, .s => some (Matrix.rrefScalar x)
  | determinant, .s | maximum, .s | minimum, .s | sum, .s => some x
  | normF, .s | abs, .s => some x.abs
  | sqrt, .s | sqrt, .i => some x.sqrt
  | sin, .s | sin, .i => some x.sin
  | cos, .s | cos, .i => some x.cos
  | atan, .s | atan, .i => some x.atan
  | exp, .s | exp, .i => some x.exp
  | log, .s | log, .i => some x.log
  | _, _ => none

def onDoublePair (x y : Float) : Primitive → Signature → Option Float
  | add, .ss => some (x + y)
  | subtract, .ss => some (x - y)
  | multiply, .ss => some (x * y)
  | divide, .ss => some (x / y)
  | elementPower, .ss => some (x.pow y)
  | atan2, .ss => some (x.atan2 y)
  | _, _ => none

/-- Double results of scalar operands; those that a function does not need are
ignored. -/
def onDoubles (p : Primitive) (signature : Signature) : List Float → Option Float
  | [] => none
  | [x] => onDouble x p signature
  | x :: y :: _ => onDouble x p signature <|> onDoublePair x y p signature

end Primitive
end MatrixCode
