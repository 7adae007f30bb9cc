import MatrixCode.Extent.Basic
import MatrixCode.Instruction.Basic
import MatrixCode.Instruction.Form
import MatrixCode.Temporaries

/-!
Construction of instructions. A construction looks at the kinds of its operands,
chooses a form, and makes a temporary for the result. One that fails leaves the
workspace as it was.
-/

namespace MatrixCode

/-- A computation on a workspace. What it did before a failure is kept. -/
abbrev Construction := ExceptT Failure (StateM Workspace)

namespace Construction

def query {α : Type} (f : Table → Outcome α) : Construction α := do
  match f (← get).table with
  | .ok a => return a
  | .error e => throw e

def kindOf (h : Handle) : Construction Kind := query (·.lookupKind h)

def mismatch {α : Type} (p : Primitive) (operands : List Handle) : Construction α := do
  report (.mismatch p.name (← query (·.describe operands)))

def unsupported {α : Type} (p : Primitive) (operands : List Handle) : Construction α := do
  report (.unsupported p.name (← query (·.describe operands)))

/-- Undoes what a construction made when it fails. -/
def guarded {α : Type} (c : Construction α) : Construction α :=
  ExceptT.mk fun w =>
    match c.run.run w with
    | (.ok a, w') => (.ok a, w')
    | (.error e, w') => (.error e, w'.rollback w.checkpoint)

/-- The instruction of a form, with a new temporary for its result. -/
def allocate (form : Form) (inputs : List Handle) : Construction Instruction := do
  let output ← modifyGet (·.create form.kind)
  return {
    primitive := form.primitive
    signature := form.signature
    inputs := inputs
    output := some output
    range := none
    blocks := none
    dimensions := form.dimensions }

def unary (p : Primitive) (a : Handle) : Construction Instruction := guarded do
  match Form.unary? p (← kindOf a) with
  | some form => allocate form [a]
  | none => mismatch p [a]

/-- The primitive that carries out an operation on two operands. Element-wise
products and quotients with a scalar are products and quotients. Division by a
matrix is refused, and nothing has been made then. -/
def screened (p : Primitive) (a b : Handle) : Construction Primitive := do
  match p with
  | .divide =>
    let left ← kindOf a
    let right ← kindOf b
    if left = .matrix ∧ right = .matrix then unsupported p [a, b]
    else if left.isScalar ∧ right = .matrix then mismatch p [a, b]
    else return p
  | .elementMultiply =>
    let left ← kindOf a
    let right ← kindOf b
    return if left = .matrix ∧ right = .matrix then p else .multiply
  | .elementDivide =>
    let left ← kindOf a
    let right ← kindOf b
    return if (left = .matrix ∨ left.isScalar) ∧ right = .matrix then p else .divide
  | _ => return p

def binary (p : Primitive) (a b : Handle) : Construction Instruction := do
  let p ← screened p a b
  guarded do
    let left ← kindOf a
    let right ← kindOf b
    match Form.binary? p left right with
    | some form => allocate form [a, b]
    | none => mismatch p [a, b]

/-- Items of a matrix are scalars or matrices. -/
def checkItem (h : Handle) : Construction Unit := do
  if (← kindOf h) = .sequence then unsupported .assemble [h]

def assemble (rows : List (List Handle)) : Construction Instruction := guarded do
  rows.flatten.forM checkItem
  let i ← allocate ⟨.assemble, .bare, .matrix, []⟩ []
  return { i with blocks := some rows }

/-- Complex numbers are not supported. -/
def complex (re im : Handle) : Construction Instruction := do
  report (.unsupported "complex" (← query (·.describe [re, im])))

def checkRange (range : List Handle) : Construction Unit := do
  let _ ← query (Addressing.classify · range)

def extract (a : Handle) (range : List Handle) : Construction Instruction := guarded do
  if (← kindOf a) ≠ .matrix then mismatch .extract [a]
  checkRange range
  let i ← allocate ⟨.extract, .bare, .matrix, []⟩ [a]
  return { i with range := some range }

/-- An element of a matrix, by its position or by its row and column. -/
def element (a : Handle) (indices : List Handle) : Construction Instruction := guarded do
  let operands := a :: indices
  let kind ← kindOf a
  if kind ≠ .matrix ∨ indices = [] ∨ 2 < indices.length then mismatch .element operands
  indices.forM fun i => do
    if (← kindOf i) ≠ .integer then mismatch .element operands
  allocate ⟨.element, .bare, .double, []⟩ operands

/-- The instruction of a copy, which makes no variable. -/
def copying (form : Form) (source target : Handle) (range : Option (List Handle)) : Instruction where
  primitive := form.primitive
  signature := form.signature
  inputs := [source]
  output := some target
  range := range
  blocks := none
  dimensions := form.dimensions

def copy (source target : Handle) : Construction Instruction := do
  let left ← kindOf source
  let right ← kindOf target
  match Form.copy? left right with
  | some form => return copying form source target none
  | none => mismatch .copy [source, target]

def copyRange (source target : Handle) (range : List Handle) : Construction Instruction := do
  let left ← kindOf source
  let right ← kindOf target
  match Form.copyRange? left right with
  | some form =>
    checkRange range
    return copying form source target (some range)
  | none => mismatch .copy [source, target]

end Construction
end MatrixCode
