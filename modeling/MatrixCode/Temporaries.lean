import MatrixCode.Variable.Table

/-!
Temporaries: variables made by the compiler, named `ti0`, `td0`, `tm0` and so on
by kind and number. The books count what was created and released per kind and
hold the handles in between. Storage is not reused here.
-/

namespace MatrixCode

structure Counts where
  integer : Nat
  double : Nat
  matrix : Nat
  deriving DecidableEq, Repr, Inhabited

namespace Counts

def zero : Counts := ⟨0, 0, 0⟩

def total (c : Counts) : Nat := c.integer + c.double + c.matrix

/-- Adds to the number of a kind; sequences are not counted. -/
def add (c : Counts) (kind : Kind) (n : Nat) : Counts :=
  match kind with
  | .integer => { c with integer := c.integer + n }
  | .double => { c with double := c.double + n }
  | .matrix => { c with matrix := c.matrix + n }
  | .sequence => c

def bump (c : Counts) (kind : Kind) : Counts := c.add kind 1

end Counts

structure Temporaries where
  created : Counts
  released : Counts
  /-- Created and not released, each once. -/
  live : List Handle
  deriving DecidableEq, Repr, Inhabited

/-- What a rollback restores. -/
structure Checkpoint where
  created : Counts
  tableSize : Nat
  deriving DecidableEq, Repr, Inhabited

/-- The variables, and the books on those that the compiler made. -/
structure Workspace where
  table : Table
  temporaries : Temporaries
  deriving Repr, Inhabited

namespace Workspace

def initial : Workspace := ⟨.initial, ⟨.zero, .zero, []⟩⟩

def nextTemporary (created : Counts) : Kind → Variable
  | .integer => .fresh ("ti" ++ toString created.integer) .integer
  | .double => .fresh ("td" ++ toString created.double) .double
  | .matrix | .sequence => .fresh ("tm" ++ toString created.matrix) .matrix

/-- Makes a temporary of a kind; for a sequence it is a matrix. -/
def create (w : Workspace) (kind : Kind) : Handle × Workspace :=
  let v := nextTemporary w.temporaries.created kind
  let (h, table) := w.table.add v
  (h, ⟨table,
    { w.temporaries with
      created := w.temporaries.created.bump v.kind
      live := w.temporaries.live.insert h }⟩)

/-- Takes a live temporary off the books; any other handle is left alone. -/
def release (w : Workspace) (h : Handle) : Workspace :=
  if w.temporaries.live.contains h then
    { w with
      temporaries :=
        { w.temporaries with
          released := match w.table.get? h with
            | some v => w.temporaries.released.bump v.kind
            | none => w.temporaries.released
          live := w.temporaries.live.erase h } }
  else w

def checkpoint (w : Workspace) : Checkpoint := ⟨w.temporaries.created, w.table.size⟩

def rollback (w : Workspace) (c : Checkpoint) : Workspace where
  table := w.table.truncate c.tableSize
  temporaries :=
    { w.temporaries with
      created := c.created
      live := w.temporaries.live.filter fun h => h.index < c.tableSize }

end Workspace
end MatrixCode
