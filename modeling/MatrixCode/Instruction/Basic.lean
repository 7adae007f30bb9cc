import MatrixCode.Instruction.Primitive
import MatrixCode.Variable.Table

/-!
Instructions. An instruction names the variables it reads and the one it writes.
A range operand is the handle of a sequence in the table, so what is read through
it depends on the table, and so does the effect of a renaming.
-/

namespace MatrixCode

structure Instruction where
  primitive : Primitive
  signature : Signature
  inputs : List Handle
  output : Option Handle
  /-- The range of an extraction or of a copy into a part of a matrix. -/
  range : Option (List Handle)
  /-- The rows of items of a matrix that is put together. -/
  blocks : Option (List (List Handle))
  /-- Where the rows and columns of the output come from. -/
  dimensions : List Dimension
  deriving DecidableEq, Repr, Inhabited

namespace Instruction

/-- The full name of the operation, such as `add-mm`. -/
def opName (i : Instruction) : String :=
  if i.signature = .bare then i.primitive.name else i.primitive.name ++ "-" ++ i.signature.suffix

def unimplemented (i : Instruction) : Failure := .reported (.unimplemented i.opName)

/-- The input at a position; an instruction that lacks it cannot be carried out. -/
def input (i : Instruction) (position : Nat) : Outcome Handle :=
  match i.inputs[position]? with
  | some h => .ok h
  | none => .error i.unimplemented

def target (i : Instruction) : Outcome Handle :=
  match i.output with
  | some h => .ok h
  | none => .error i.unimplemented

/-- Fails with the operation's name when a kernel fails. -/
def kernel {α : Type} (i : Instruction) (result : Except Fault α) : Outcome α :=
  result.mapError (.ofFault i.opName)

/-- A kernel that works on a state. -/
def stateful {σ α : Type} (i : Instruction) (x : ExceptT Fault (StateM σ) α) :
    ExceptT Failure (StateM σ) α :=
  ExceptT.mk (i.kernel <$> x.run)

/-- A copy of a whole variable into one of the same kind, or of a scalar. -/
def isPlainCopy (i : Instruction) : Bool :=
  i.primitive = .copy && i.range.isNone && [.mm, .ss, .ii].contains i.signature

/-- The operations that write into a target shaped beforehand. -/
def writesInPlace (i : Instruction) : Bool :=
  match i.primitive, i.signature with
  | .add, .mm | .subtract, .mm | .multiply, .mm | .elementMultiply, .mm | .elementDivide, .mm => true
  | .transpose, .m => true
  | .copy, .mm => true
  | _, _ => false

def items (i : Instruction) : List Handle := (i.blocks.getD []).flatten

def readThrough (t : Table) (h : Handle) : Outcome (List Handle) := do
  match (← t.fetch h).range? with
  | some range => return range.referenced
  | none => return [h]

def reads (i : Instruction) (t : Table) : Outcome (List Handle) := do
  let range ← (i.range.getD []).mapM (readThrough t)
  return i.inputs ++ range.flatten ++ i.items

def references (i : Instruction) (t : Table) : Outcome (List Handle) := do
  return (← i.reads t) ++ i.output.toList

/-- Renames the handles that the instruction itself holds. -/
def rename (f : Handle → Handle) (i : Instruction) : Instruction :=
  { i with
    inputs := i.inputs.map f
    output := i.output.map f
    range := i.range.map (·.map f)
    blocks := i.blocks.map (·.map (·.map f)) }

end Instruction

namespace Table

/-- Replaces `source` by `target` inside the sequences listed. -/
def renameWithin (t : Table) (source target : Handle) (hs : List Handle) : Table :=
  hs.foldl
    (fun t h => if h = source then t else t.modify h (Variable.mapRange (Handle.replace source target)))
    t

end Table
end MatrixCode
