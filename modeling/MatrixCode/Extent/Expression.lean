import MatrixCode.Extent.Basic

/-!
Index expressions: extents as they are written in a program text. A literal that
is an index stands as a numeral, every other value goes through a conversion that
checks it when the text runs.
-/

namespace MatrixCode

inductive IndexOperand where
  | word (value : Int64)
  | variable (h : Handle)
  deriving DecidableEq, Repr

inductive Position where
  | numeral (n : Int64)
  | length
  /-- The checked conversion of an integer. -/
  | checked (operand : IndexOperand)
  /-- The checked conversion of an integer, plus one. -/
  | checkedAfter (operand : IndexOperand)
  deriving DecidableEq, Repr

inductive Chunk where
  | single (position : Position)
  | sequence (first step last : IndexOperand)
  | sequenceTo (first step : IndexOperand)
  deriving DecidableEq, Repr

inductive IndexExpression where
  | interval (start stop : Position)
  | joined (chunks : List Chunk)
  deriving DecidableEq, Repr

namespace IndexOperand

def ofHandle (t : Table) (h : Handle) : Outcome IndexOperand := do
  match (← t.fetch h).literalInteger? with
  | some value => return word value
  | none => return .variable h

def ofOption (t : Table) (default : Int64) : Option Handle → Outcome IndexOperand
  | none => return word default
  | some h => ofHandle t h

end IndexOperand

namespace Position

def ofHandle (t : Table) (h : Handle) : Outcome Position := do
  match ← IndexOperand.ofHandle t h with
  | .word value => return if 0 ≤ value then numeral value else checked (.word value)
  | operand => return checked operand

def afterHandle (t : Table) (h : Handle) : Outcome Position := do
  match ← IndexOperand.ofHandle t h with
  | .word value =>
    match Word.add? value 1 with
    | some next => return if 0 ≤ next then numeral next else checkedAfter (.word value)
    | none => return checkedAfter (.word value)
  | operand => return checkedAfter operand

def ofEndpoint (t : Table) : Endpoint → Outcome Position
  | .zero => return numeral 0
  | .one => return numeral 1
  | .value h => ofHandle t h
  | .past h => afterHandle t h
  | .length => return length

end Position

namespace Chunk

def ofPart (t : Table) : Part → Outcome Chunk
  | .single h => return single (← Position.ofHandle t h)
  | .span first step last => do
    let first ← IndexOperand.ofHandle t first
    let step ← IndexOperand.ofOption t 1 step
    return sequence first step (← IndexOperand.ofHandle t last)
  | .toEnd first step => do
    let first ← IndexOperand.ofOption t 0 first
    return sequenceTo first (← IndexOperand.ofOption t 1 step)

end Chunk

namespace Extent

def expression (t : Table) : Extent → Outcome IndexExpression
  | block start stop => return .interval (← Position.ofEndpoint t start) (← Position.ofEndpoint t stop)
  | listed parts => return .joined (← parts.mapM (Chunk.ofPart t))

end Extent

/-- How the parts of an index expression are spelled. -/
structure IndexStyle where
  /-- The expression for the length of the dimension. -/
  length : String
  /-- The path of the kernel library. -/
  kernels : String
  /-- The text of a variable as an integer. -/
  operand : Handle → Outcome String

namespace IndexStyle

variable (style : IndexStyle)

def call (function : String) (arguments : List String) : String :=
  style.kernels ++ "::" ++ function ++ "(" ++ ", ".intercalate arguments ++ ")?"

def operandText : IndexOperand → Outcome String
  | .word value => return Word.text value
  | .variable h => style.operand h

def position : Position → Outcome String
  | .numeral n => return Word.text n
  | .length => return style.length
  | .checked operand => return style.call "to_index" [← style.operandText operand]
  | .checkedAfter operand => return style.call "to_index_after" [← style.operandText operand]

def chunk : Chunk → Outcome String
  | .single p => return "vec![" ++ (← style.position p) ++ "]"
  | .sequence first step last =>
    return style.call "sequence"
      [← style.operandText first, ← style.operandText step, ← style.operandText last]
  | .sequenceTo first step =>
    return style.call "sequence_to"
      [← style.operandText first, ← style.operandText step, style.length]

/-- The text of a list of indices. A single text stands alone, unless it begins like a
list literal: a list literal is always joined. -/
def joined (chunks : List Chunk) : Outcome String := do
  let texts ← chunks.mapM style.chunk
  let join := "[" ++ ", ".intercalate texts ++ "].concat()"
  match texts with
  | [text] => return if "vec!".toList.isPrefixOf text.toList then join else text
  | _ => return join

end IndexStyle

inductive ExtentText where
  | block (start stop : String)
  | indices (text : String)
  deriving DecidableEq, Repr

namespace ExtentText

def asList : ExtentText → String
  | block start stop => "(" ++ start ++ ".." ++ stop ++ ").collect::<Vec<usize>>()"
  | indices text => text

end ExtentText

namespace Extent

def render (t : Table) (style : IndexStyle) (e : Extent) : Outcome ExtentText := do
  match ← e.expression t with
  | .interval start stop => return .block (← style.position start) (← style.position stop)
  | .joined chunks => return .indices (← style.joined chunks)

end Extent
end MatrixCode
