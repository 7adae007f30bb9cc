import MatrixCode.Program

/-!
Usage: which variables a program touches, in what role, and for temporaries at
which instructions.
-/

namespace MatrixCode

inductive UsageRole where
  /-- Read and never written. -/
  | input
  /-- Made by the compiler. -/
  | temporary (kind : Kind)
  /-- Written, and not a temporary. -/
  | target
  deriving DecidableEq, Repr

structure Usage where
  /-- What each instruction touches. -/
  touched : List (List Handle)
  /-- What is written. -/
  written : List Handle
  /-- Every variable that is touched, in ascending order of handles. -/
  entries : List (Handle × Variable)
  deriving Repr

/-- The instructions between which a temporary holds a value. -/
structure Interval where
  handle : Handle
  first : Nat
  last : Nat
  deriving DecidableEq, Repr

namespace Interval

/-- Inserts into a list ordered by first use, before what starts at the same place. -/
def insertByFirst (x : Interval) : List Interval → List Interval
  | [] => [x]
  | y :: ys => if x.first ≤ y.first then x :: y :: ys else y :: insertByFirst x ys

/-- Orders by first use; what starts at the same place keeps its order. -/
def sortByFirst (xs : List Interval) : List Interval := xs.foldr insertByFirst []

end Interval

namespace Usage

def ofProgram (p : Program) (t : Table) : Outcome Usage := do
  let touched ← p.instructions.mapM (·.references t)
  let handles := Handle.sorted touched.flatten
  return {
    touched := touched
    written := p.instructions.filterMap (·.output)
    entries := handles.zip (← handles.mapM t.fetch) }

def roleOf (u : Usage) (h : Handle) (v : Variable) : UsageRole :=
  if v.temporary then .temporary v.kind
  else if u.written.contains h then .target
  else .input

def occurrences (u : Usage) (h : Handle) : List Nat :=
  (u.touched.zipIdx.filter fun (handles, _) => handles.contains h).map Prod.snd

/-- The instructions that touch a temporary; none for other variables. -/
def liveRange (u : Usage) (h : Handle) (v : Variable) : List Nat :=
  if v.temporary then u.occurrences h else []

def intervals (u : Usage) (kind : Kind) : List Interval :=
  let temporaries := u.entries.filter fun (_, v) => v.temporary && v.kind = kind
  Interval.sortByFirst <| temporaries.filterMap fun (h, _) =>
    match u.occurrences h with
    | [] => none
    | first :: rest => some ⟨h, first, rest.getLastD first⟩

def temporaries (u : Usage) (kind : Kind) : List Handle := (u.intervals kind).map Interval.handle

def temporaryCount (u : Usage) : Nat := u.entries.countP fun (_, v) => v.temporary

end Usage
end MatrixCode
