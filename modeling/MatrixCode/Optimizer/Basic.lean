import MatrixCode.Construction.Request
import MatrixCode.Optimizer.Folding
import MatrixCode.Optimizer.Report
import MatrixCode.Optimizer.Usage

/-!
The optimizer folds constants, writes the final value straight into its target,
and lets temporaries share storage. None of this changes what a program computes.
-/

namespace MatrixCode
namespace Program

/-- The source and the target of a final copy that can be dropped: the source is
a temporary, the target is a variable of the user of the same kind, and nothing
before reads the target. -/
def trailingCopy? (p : Program) (t : Table) : Outcome (Option (Handle × Handle)) := do
  let some last := p.instructions.getLast? | return none
  if !last.isPlainCopy then return none
  let some source := last.inputs.head? | return none
  let some target := last.output | return none
  let s ← t.fetch source
  let d ← t.fetch target
  if !s.temporary || d.temporary || s.kind ≠ d.kind then return none
  let earlier ← p.instructions.dropLast.mapM (·.reads t)
  return if earlier.flatten.contains target then none else some (source, target)

def countTemporaries (p : Program) (t : Table) : Outcome Counts := do
  let kinds ← (← p.temporaries t).mapM t.fetchKind
  return kinds.foldl Counts.bump .zero

end Program

namespace Draft

/-- Replaces a temporary by another variable and takes it off the books. -/
def replace (d : Draft) (source target : Handle) : Draft :=
  let (program, table) := d.program.substitute source target d.workspace.table
  ⟨{ d.workspace with table := table }.release source, program⟩

/-- Drops the final copy and lets everything before use its target. -/
def dropTrailingCopy (d : Draft) (source target : Handle) : Draft :=
  let d := { d with program := { d.program with instructions := d.program.instructions.dropLast } }
  let d := d.replace source target
  { d with program := { d.program with output := some target } }

end Draft

namespace Sharing

/-- A temporary may take over storage after its last use. A scalar may do so at
the instruction of that last use; a matrix may not, since it is written in place. -/
def follows (strict : Bool) (last : Nat) (x : Interval) : Bool :=
  if strict then last < x.first else last ≤ x.first

/-- Splits off those that can take over one storage, one after the other. -/
def takeOver (strict : Bool) (last : Nat) : List Interval → List Interval × List Interval
  | [] => ([], [])
  | x :: xs =>
    if follows strict last x then
      let (taken, left) := takeOver strict x.last xs
      (x :: taken, left)
    else
      let (taken, left) := takeOver strict last xs
      (taken, x :: left)

theorem length_takeOver_le (strict : Bool) (last : Nat) (xs : List Interval) :
    (takeOver strict last xs).2.length ≤ xs.length := by
  induction xs generalizing last with
  | nil => simp [takeOver]
  | cons x xs ih =>
    unfold takeOver
    split
    · exact Nat.le_succ_of_le (ih x.last)
    · exact Nat.succ_le_succ (ih last)

/-- Who takes over from whom. The earliest temporary hands its storage on as often
as it can, then the earliest of those that are left, and so on. -/
def plan (strict : Bool) : List Interval → List (Handle × Handle)
  | [] => []
  | x :: xs =>
    let split := takeOver strict x.last xs
    split.1.map (fun y => (y.handle, x.handle)) ++ plan strict split.2
  termination_by xs => xs.length
  decreasing_by exact Nat.lt_succ_of_le (length_takeOver_le strict x.last xs)

end Sharing

namespace Drafting

def query {α : Type} (f : Program → Table → Outcome α) : Drafting α := do
  let d ← get
  f d.program d.workspace.table

/-- Folds constants and gives the number of instructions folded away. -/
def foldConstants (policy : Policy) (folder : Folder) : Drafting Nat := do
  let d ← get
  let f := Folding.run policy folder d.workspace d.program.instructions
  set { d with workspace := f.workspace, program.instructions := f.instructions }
  match f.failure with
  | some e => throw e
  | none => return f.removed

/-- Drops the final copy if it can be dropped, and tells whether it was. -/
def dropTrailingCopy : Drafting Bool := do
  match ← query Program.trailingCopy? with
  | some (source, target) =>
    modify (·.dropTrailingCopy source target)
    return true
  | none => return false

/-- Lets temporaries of a kind share storage and gives the number saved. -/
def shareTemporaries (kind : Kind) : Drafting Nat := do
  let usage ← query Usage.ofProgram
  let plan := Sharing.plan (kind = .matrix) (usage.intervals kind)
  modify fun d => plan.foldl (fun d (later, earlier) => d.replace later earlier) d
  return plan.length

/-- Runs all passes and reports on them. When folding fails, what was folded until
then stays folded. -/
def optimize (policy : Policy) (folder : Folder) : Drafting Report := do
  let before := (← get).program.size
  let temporariesBefore ← query Program.countTemporaries
  let removed ← foldConstants policy folder
  let copyRemoved ← dropTrailingCopy
  let integers ← shareTemporaries .integer
  let doubles ← shareTemporaries .double
  let matrices ← shareTemporaries .matrix
  return {
    instructionsBefore := before
    instructionsAfter := (← get).program.size
    temporariesBefore := temporariesBefore
    temporariesAfter := ← query Program.countTemporaries
    removedConstants := removed
    removedTemporaries := ⟨integers, doubles, matrices⟩
    trailingCopyRemoved := copyRemoved }

end Drafting
end MatrixCode
