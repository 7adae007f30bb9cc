import MatrixCode.Instruction.Basic

/-!
Programs: the instructions of one equation in the order in which they run, and
the variable that the equation assigns.
-/

namespace MatrixCode

structure Program where
  instructions : List Instruction
  output : Option Handle
  deriving DecidableEq, Repr, Inhabited

namespace Handle

/-- Inserts a handle into an ascending list without repetition. -/
def insertSorted (h : Handle) : List Handle → List Handle
  | [] => [h]
  | k :: ks =>
    if h.index < k.index then h :: k :: ks
    else if h = k then k :: ks
    else k :: insertSorted h ks

/-- The handles of a list in ascending order, each once. -/
def sorted (hs : List Handle) : List Handle := hs.foldr insertSorted []

end Handle

namespace Program

def empty : Program := ⟨[], none⟩

def size (p : Program) : Nat := p.instructions.length

def push (p : Program) (i : Instruction) : Program :=
  { p with instructions := p.instructions ++ [i] }

def ranges (p : Program) : List Handle := p.instructions.flatMap fun i => i.range.getD []

/-- Replaces `source` by `target` everywhere, also inside the ranges that the
program uses. -/
def substitute (source target : Handle) (p : Program) (t : Table) : Program × Table :=
  let f := Handle.replace source target
  (⟨p.instructions.map (·.rename f), p.output.map f⟩, t.renameWithin source target p.ranges)

/-- Every variable that the program touches, in ascending order. -/
def references (p : Program) (t : Table) : Outcome (List Handle) := do
  let hs ← p.instructions.mapM (·.references t)
  return Handle.sorted hs.flatten

/-- The compiler's variables among the references. -/
def temporaries (p : Program) (t : Table) : Outcome (List Handle) := do
  let hs ← p.references t
  let vs ← hs.mapM t.fetch
  return ((hs.zip vs).filter fun (_, v) => v.temporary).map Prod.fst

def temporariesOf (p : Program) (t : Table) (kind : Kind) : Outcome (List Handle) := do
  (← p.temporaries t).filterM fun h => return (← t.fetchKind h) = kind

end Program
end MatrixCode
