import MatrixCode.Number.Reader
import MatrixCode.Number.Text
import MatrixCode.Text.Identifier
import MatrixCode.Variable.IndexRange

/-!
Variables. A name of the form `Integer{…}` or `Double{…}` makes a variable a
literal: the text between the braces is what an operand is written as, and, when
it is a number, the value it has.
-/

namespace MatrixCode

namespace Precedence

/-- The weakest level. An operand below the level of its context is written in
parentheses. -/
def additive : Nat := 1

def multiplicative : Nat := 2

def unary : Nat := 3

/-- Names, numbers and calls. -/
def atom : Nat := 255

/-- The level of a number: a minus sign counts as an operator. -/
def ofSign (negative : Bool) : Nat := if negative then unary else atom

end Precedence

/-- The kind of a variable, together with the range that a sequence stands for. -/
inductive Content where
  | integer
  | double
  | matrix
  | sequence (range : IndexRange)
  deriving Repr, Inhabited

namespace Content

def kind : Content → Kind
  | integer => .integer
  | double => .double
  | matrix => .matrix
  | sequence _ => .sequence

end Content

structure Variable where
  name : String
  content : Content
  /-- Introduced by the compiler. -/
  temporary : Bool
  /-- The name is an expression without free identifiers. -/
  constant : Bool
  precedence : Nat
  deriving Repr, Inhabited

namespace LiteralName

def wrap (word text : String) : String := word ++ "\x7b" ++ text ++ "\x7d"

/-- The text up to a final closing brace, if it is on one line. -/
def beforeBrace (cs : List Char) : Option (List Char) :=
  if cs.getLast? = some '\x7d' ∧ ¬cs.dropLast.contains '\n' then some cs.dropLast else none

/-- The text inside the braces of a literal's name. -/
def body? (name : String) : Option (List Char) :=
  let cs := name.toList
  let integer := ("Integer\x7b").toList
  let double := ("Double\x7b").toList
  if integer.isPrefixOf cs then beforeBrace (cs.drop integer.length)
  else if double.isPrefixOf cs then beforeBrace (cs.drop double.length)
  else none

def integer (value : Int64) : String := wrap "Integer" (Word.text value)

def double (value : Float) : String := wrap "Double" (NumberText.literal value)

end LiteralName

namespace Variable

/-- A variable of the user. -/
def named (name : String) (content : Content) : Variable :=
  ⟨name, content, false, false, Precedence.atom⟩

/-- A variable of the compiler. -/
def fresh (name : String) (content : Content) : Variable :=
  ⟨name, content, true, false, Precedence.atom⟩

def integerLiteral (value : Int64) : Variable :=
  ⟨LiteralName.integer value, .integer, false, true, Precedence.ofSign (value.toInt < 0)⟩

def doubleLiteral (value : Float) : Variable :=
  ⟨LiteralName.double value, .double, false, true, Precedence.ofSign (Binary.isNegative value)⟩

def kind (v : Variable) : Kind := v.content.kind

def range? (v : Variable) : Option IndexRange :=
  match v.content with
  | .sequence range => some range
  | _ => none

def isLiteral (v : Variable) : Bool := (LiteralName.body? v.name).isSome

def operand (v : Variable) : String :=
  match LiteralName.body? v.name with
  | some body => String.ofList body
  | none => v.name

/-- The operand as written in a context of the given level. -/
def operandIn (v : Variable) (context : Nat) : String :=
  if v.precedence < context then "(" ++ v.operand ++ ")" else v.operand

def literalInteger? (v : Variable) : Option Int64 :=
  if v.kind = .integer then (LiteralName.body? v.name).bind fun body => Reader.word? (Blank.trim body)
  else none

/-- Drops one type suffix of a floating point literal. -/
def withoutSuffix (cs : List Char) : List Char :=
  if ['f', '6', '4'].isSuffixOf cs then cs.take (cs.length - 3) else cs

/-- The value of a scalar literal; an integer is read as a double. -/
def literalDouble? (v : Variable) : Option Float :=
  if v.kind.isScalar then
    (LiteralName.body? v.name).bind fun body => Reader.double? (withoutSuffix (Blank.trim body))
  else none

def isLiteralOne (v : Variable) : Bool := v.literalInteger? = some 1

/-- Turns the variable into the literal with the given text. -/
def foldInto (v : Variable) (text : String) (precedence : Nat) : Variable :=
  { v with
    name := LiteralName.wrap (if v.kind = .integer then "Integer" else "Double") text
    temporary := false
    constant := !Identifier.hasFree text
    precedence := precedence }

/-- Applies a renaming of handles to the range of a sequence. -/
def mapRange (f : Handle → Handle) (v : Variable) : Variable :=
  match v.content with
  | .sequence range => { v with content := .sequence (range.map f) }
  | _ => v

end Variable
end MatrixCode
