import MatrixCode.Instruction.Folder
import MatrixCode.Writer.Operand

/-!
Scalar expressions. An instruction on scalars is one expression; its level tells
where it needs parentheses when it becomes an operand itself.
-/

namespace MatrixCode

/-- How an instruction on scalars is written. In a `wide` form integer operands
are turned into doubles. -/
inductive Phrase where
  /-- Two operands around a sign, grouped to the left. -/
  | between (sign : String) (level : Nat) (wide : Bool) (a b : Handle)
  | negation (wide : Bool) (a : Handle)
  /-- The operand itself. -/
  | alone (wide : Bool) (a : Handle)
  | reciprocal (a : Handle)
  /-- The checked quotient of integers. -/
  | integerQuotient (a b : Handle)
  | integerAbs (a : Handle)
  /-- A function on doubles. -/
  | function (name : String) (arguments : List Handle)
  /-- A function of the kernel library on a double. -/
  | library (name : String) (a : Handle)
  deriving DecidableEq, Repr

namespace Phrase

def sum (wide : Bool) (a b : Handle) : Phrase := between "+" Precedence.additive wide a b

def difference (wide : Bool) (a b : Handle) : Phrase := between "-" Precedence.additive wide a b

def product (wide : Bool) (a b : Handle) : Phrase := between "*" Precedence.multiplicative wide a b

def quotient (a b : Handle) : Phrase := between "/" Precedence.multiplicative true a b

def unary? (a : Handle) : Primitive → Signature → Option Phrase
  | .negate, .i => some (negation false a)
  | .negate, .s => some (negation true a)
  | .copy, .ii | .maximum, .i | .minimum, .i => some (alone false a)
  | .copy, .ss | .determinant, .s | .maximum, .s | .minimum, .s | .sum, .s => some (alone true a)
  | .abs, .i => some (integerAbs a)
  | .abs, .s | .normF, .s | .normP, .ss => some (function "f64::abs" [a])
  | .inverse, .s => some (reciprocal a)
  | .pseudoInverse, .s => some (library "pinv_scalar" a)
  | .echelon, .s => some (library "rref_scalar" a)
  | .sqrt, .s | .sqrt, .i => some (function "f64::sqrt" [a])
  | .sin, .s | .sin, .i => some (function "f64::sin" [a])
  | .cos, .s | .cos, .i => some (function "f64::cos" [a])
  | .atan, .s | .atan, .i => some (function "f64::atan" [a])
  | .exp, .s | .exp, .i => some (function "f64::exp" [a])
  | .log, .s | .log, .i => some (function "f64::ln" [a])
  | _, _ => none

def binary? (a b : Handle) : Primitive → Signature → Option Phrase
  | .add, .ii => some (sum false a b)
  | .add, .ss => some (sum true a b)
  | .subtract, .ii => some (difference false a b)
  | .subtract, .ss => some (difference true a b)
  | .multiply, .ii => some (product false a b)
  | .multiply, .ss => some (product true a b)
  | .divide, .ii => some (integerQuotient a b)
  | .divide, .ss => some (quotient a b)
  | .elementPower, .ss => some (function "f64::powf" [a, b])
  | .atan2, .ss => some (function "f64::atan2" [a, b])
  | _, _ => none

/-- The phrase of an instruction; operands that it does not need are ignored. -/
def ofInstruction? (i : Instruction) : Option Phrase :=
  match i.inputs with
  | [] => none
  | [a] => unary? a i.primitive i.signature
  | a :: b :: _ => unary? a i.primitive i.signature <|> binary? a b i.primitive i.signature

end Phrase

namespace Writer

variable (w : Writer) (t : Table)

def operand (wide : Bool) (h : Handle) (context : Nat) : Outcome String :=
  if wide then w.double t h context else w.scalar t h context

def phrase : Phrase → Outcome ScalarText
  | .between sign level wide a b =>
    return ⟨(← w.operand t wide a level) ++ " " ++ sign ++ " " ++ (← w.operand t wide b (level + 1)),
      level⟩
  | .negation wide a => return ⟨"-" ++ (← w.operand t wide a Precedence.atom), Precedence.unary⟩
  | .alone wide a => return ⟨← w.operand t wide a Precedence.atom, Precedence.atom⟩
  | .reciprocal a =>
    return ⟨"1.0 / " ++ (← w.double t a (Precedence.multiplicative + 1)), Precedence.multiplicative⟩
  | .integerQuotient a b =>
    return ⟨call (w.path "divide_integer") [← w.scalar t a 0, ← w.scalar t b 0] true, Precedence.atom⟩
  | .integerAbs a => return ⟨call "i64::abs" [← w.scalar t a 0] false, Precedence.atom⟩
  | .function name arguments =>
    return ⟨call name (← arguments.mapM (w.double t · 0)) false, Precedence.atom⟩
  | .library name a => return ⟨call (w.path name) [← w.double t a 0] false, Precedence.atom⟩

/-- True when all operands are scalars; stops at the first that is none. -/
def areScalars : List Handle → Outcome Bool
  | [] => return true
  | h :: hs => do if (← t.fetchKind h).isScalar then areScalars hs else return false

def scalarExpression (i : Instruction) : Outcome (Option ScalarText) := do
  if ← areScalars t i.inputs then (Phrase.ofInstruction? i).mapM (w.phrase t) else return none

/-- Folding by writing: the expression takes the place of the output. -/
def fold : Folder := fun t i => do
  if ← i.isScalarTask t then w.scalarExpression t i else return none

end Writer
end MatrixCode
