import MatrixCode.Instruction.Folder
import MatrixCode.Machine.Scalar
import MatrixCode.Optimizer.Policy
import MatrixCode.Temporaries

/-!
Constant folding. An instruction on known scalars whose output is a temporary is
dropped, and the temporary becomes the expression that it stands for. The last
instruction of a program is always kept.
-/

namespace MatrixCode
namespace Folding

/-- True when all operands are known; stops at the first that is not. -/
def areKnown (policy : Policy) (t : Table) : List Handle → Outcome Bool
  | [] => return true
  | h :: hs => do if policy.knows (← t.fetch h) then areKnown policy t hs else return false

/-- The output of an instruction that may be folded away. -/
def candidate? (policy : Policy) (t : Table) (i : Instruction) : Outcome (Option Handle) := do
  let some output := i.output | return none
  let v ← t.fetch output
  if v.temporary && v.kind.isScalar && !i.primitive.isRandom && i.range.isNone && i.blocks.isNone
      && !i.inputs.isEmpty then
    if ← areKnown policy t i.inputs then return some output
  return none

/-- Integer operations that are folded without asking anyone. -/
def isClosed (i : Instruction) : Bool :=
  match i.primitive, i.signature with
  | .negate, .i | .add, .ii | .subtract, .ii | .multiply, .ii | .divide, .ii => true
  | _, _ => false

/-- The values of the operands when all are integer literals. -/
def literals? (t : Table) (hs : List Handle) : Outcome (Option (List Int64)) := do
  return (← hs.mapM t.fetch).mapM Variable.literalInteger?

def expression? (folder : Folder) (t : Table) (i : Instruction) : Outcome (Option ScalarText) := do
  if isClosed i then
    match ← literals? t i.inputs with
    | some arguments => return (i.primitive.onWords arguments).map .integer
    | none => folder t i
  else folder t i

/-- The output of an instruction that is folded away, and what it becomes. -/
def step (policy : Policy) (folder : Folder) (t : Table) (i : Instruction) :
    Outcome (Option (Handle × ScalarText)) := do
  match ← candidate? policy t i with
  | some output => return (← expression? folder t i).map fun e => (output, e)
  | none => return none

end Folding

namespace Workspace

def fold (w : Workspace) (h : Handle) (e : ScalarText) : Workspace :=
  let w := w.release h
  { w with table := w.table.modify h (·.foldInto e.text e.precedence) }

end Workspace

/-- What folding leaves: the instructions kept, the workspace, how many were
folded away, and the failure that stopped it, if any. -/
structure Folding where
  instructions : List Instruction
  workspace : Workspace
  removed : Nat
  failure : Option Failure
  deriving Repr

namespace Folding

/-- Folds one instruction after the other. After a failure the rest is kept as it is. -/
def run (policy : Policy) (folder : Folder) (w : Workspace) : List Instruction → Folding
  | [] => ⟨[], w, 0, none⟩
  | [last] => ⟨[last], w, 0, none⟩
  | i :: next :: rest =>
    match step policy folder w.table i with
    | .error e => ⟨i :: next :: rest, w, 0, some e⟩
    | .ok none =>
      let f := run policy folder w (next :: rest)
      { f with instructions := i :: f.instructions }
    | .ok (some (output, e)) =>
      let f := run policy folder (w.fold output e) (next :: rest)
      { f with removed := f.removed + 1 }

end Folding
end MatrixCode
