import MatrixCode.Construction.Basic
import MatrixCode.Program

/-!
Requests for instructions, and drafts: programs that grow by one instruction with
every request that succeeds.
-/

namespace MatrixCode

/-- What an equation may ask for. -/
inductive Request where
  | unary (p : Primitive) (a : Handle)
  | binary (p : Primitive) (a b : Handle)
  | assemble (rows : List (List Handle))
  | complex (re im : Handle)
  | extract (a : Handle) (range : List Handle)
  | element (a : Handle) (indices : List Handle)
  | copy (source target : Handle)
  | copyRange (source target : Handle) (range : List Handle)
  deriving DecidableEq, Repr

namespace Request

def perform : Request → Construction Instruction
  | unary p a => .unary p a
  | binary p a b => .binary p a b
  | assemble rows => .assemble rows
  | complex re im => .complex re im
  | extract a range => .extract a range
  | element a indices => .element a indices
  | copy source target => .copy source target
  | copyRange source target range => .copyRange source target range

end Request

/-- A program in the making, and the workspace that it is made in. -/
structure Draft where
  workspace : Workspace
  program : Program
  deriving Repr, Inhabited

/-- A computation on a draft. What it did before a failure is kept. -/
abbrev Drafting := ExceptT Failure (StateM Draft)

namespace Drafting

def construct {α : Type} (c : Construction α) : Drafting α :=
  ExceptT.mk fun d =>
    let (result, workspace) := c.run.run d.workspace
    (result, { d with workspace := workspace })

def push (i : Instruction) : Drafting Unit := modify fun d => { d with program := d.program.push i }

/-- Adds the constructed instruction to the program and gives its output. -/
def apply (c : Construction Instruction) : Drafting Handle := do
  let i ← construct c
  match i.output with
  | some output =>
    push i
    return output
  | none => throw i.unimplemented

def setOutput (h : Handle) : Drafting Unit :=
  modify fun d => { d with program := { d.program with output := some h } }

/-- Assigns a variable: the last step of an equation. -/
def assign (source target : Handle) : Drafting Unit := do
  push (← construct (.copy source target))
  setOutput target

def assignRange (source target : Handle) (range : List Handle) : Drafting Unit := do
  push (← construct (.copyRange source target range))
  setOutput target

end Drafting
end MatrixCode
