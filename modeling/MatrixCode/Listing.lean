import MatrixCode.Program

/-!
Listings: programs for a reader, one numbered instruction a line, with ranges the
way they stand in an equation.
-/

namespace MatrixCode
namespace Listing

def commas (texts : List String) : String := ",".intercalate texts

mutual

def rangeWith (operand : Handle → String) : IndexRange → String
  | .list items => "[" ++ commas (items.map operand) ++ "]"
  | .span first (some step) last => operand first ++ ":" ++ operand step ++ ":" ++ operand last
  | .span first none last => operand first ++ ":" ++ operand last
  | .toEnd none none => ":"
  | .toEnd (some first) none => operand first ++ ":"
  | .toEnd first (some step) => first.elim "0" operand ++ ":" ++ operand step ++ ":"
  | .union parts => "[" ++ commas (rangesWith operand parts) ++ "]"

def rangesWith (operand : Handle → String) : List IndexRange → List String
  | [] => []
  | part :: parts => rangeWith operand part :: rangesWith operand parts

end

/-- The text of a variable. Ranges that refer to ranges are followed `depth` times. -/
def operandWithin (t : Table) : Nat → Handle → String
  | 0, h => h.text
  | depth + 1, h =>
    match t.get? h with
    | none => h.text
    | some v =>
      match v.range? with
      | some range => rangeWith (operandWithin t depth) range
      | none => v.operand

/-- The text of a variable. A range that is not part of itself is written out. -/
def operand (t : Table) (h : Handle) : String := operandWithin t (t.size + 1) h

def range (t : Table) (r : IndexRange) : String := rangeWith (operand t) r

def selection (t : Table) (range : Option (List Handle)) : String :=
  match range with
  | some hs => "(" ++ commas (hs.map (operand t)) ++ ")"
  | none => ""

def blocks (t : Table) (rows : List (List Handle)) : String :=
  "[" ++ "; ".intercalate (rows.map fun row => ", ".intercalate (row.map (operand t))) ++ "]"

/-- One instruction, such as `tm1 = multiply-mm(A, tm0)`. The range of a copy is
that of the target, every other range is that of the first operand. -/
def instruction (t : Table) (i : Instruction) : String :=
  let selected := selection t i.range
  let target := i.output.elim "_" (operand t)
  let inputs := i.inputs.map (operand t)
  let (target, inputs) :=
    if i.primitive = .copy then (target ++ selected, inputs)
    else
      match inputs with
      | first :: rest => (target, (first ++ selected) :: rest)
      | [] => (target, [])
  let arguments := inputs ++ (i.blocks.map (blocks t)).toList
  target ++ " = " ++ i.opName ++ "(" ++ ", ".intercalate arguments ++ ")"

/-- A number with at least four digits. -/
def lineNumber (n : Nat) : String :=
  let digits := (toString n).toList
  String.ofList (List.replicate (4 - digits.length) '0' ++ digits)

def program (t : Table) (p : Program) : String :=
  String.join <| p.instructions.zipIdx.map fun (i, n) => lineNumber n ++ ": " ++ instruction t i ++ "\n"

def rule (c : Char) : String := String.ofList (List.replicate 59 c) ++ "\n"

/-- A page with the output, the number of temporaries, and all instructions. -/
def page (t : Table) (p : Program) : Outcome String := do
  let temporaries ← p.temporaries t
  return rule '═' ++ "                    SEQUENCE DUMP\n" ++ rule '═' ++
    "Output: " ++ p.output.elim "none" (operand t) ++ "\n" ++
    "Temporaries: " ++ toString temporaries.length ++ "\n" ++
    rule '─' ++ program t p ++ rule '═' ++ "\n"

end Listing
end MatrixCode
