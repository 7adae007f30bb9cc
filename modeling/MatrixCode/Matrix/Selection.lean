import MatrixCode.Matrix.Arithmetic
import MatrixCode.Matrix.Progression

/-!
Reading and writing parts of a matrix: a block of consecutive rows and columns,
listed rows and columns, or listed positions counted row by row. All bounds are
checked before anything is written.
-/

namespace MatrixCode
namespace Matrix

variable {α : Type} [Inhabited α]

/-- Offset and length of `[start, stop)` within a dimension. Reversed bounds
select nothing, wherever they lie. -/
def interval (start stop length : Nat) : Except Fault (Nat × Nat) :=
  if stop ≤ start then return (0, 0)
  else if length < stop then throw (.indexOutOfBounds (Progression.lengthWord stop - 1) length)
  else return (start, stop - start)

/-- All indices must be below the length; the first that is not is reported. -/
def checkIndices (indices : List Nat) (length : Nat) : Except Fault Unit :=
  match indices.find? (length ≤ ·) with
  | some i => throw (.indexOutOfBounds (Progression.lengthWord i) length)
  | none => return ()

/-- Row and column of the position `k`, counted row by row. -/
def position (m : Matrix α) (k : Nat) : Nat × Nat :=
  let cols := Nat.max m.cols 1
  (k / cols, k % cols)

def entryAt (m : Matrix α) (k : Nat) : α := m.entry (m.position k).1 (m.position k).2

def extractBlock (a : Matrix α) (r₀ r₁ c₀ c₁ : Nat) : Except Fault (Matrix α) := do
  let (r, rows) ← interval r₀ r₁ a.rows
  let (c, cols) ← interval c₀ c₁ a.cols
  return build rows cols fun i j => a.entry (r + i) (c + j)

def extractIndices (a : Matrix α) (rows cols : List Nat) : Except Fault (Matrix α) := do
  checkIndices rows a.rows
  checkIndices cols a.cols
  let rows := rows.toArray
  let cols := cols.toArray
  return build rows.size cols.size fun i j => a.entry (rows.getD i 0) (cols.getD j 0)

/-- A row of the elements at the listed positions. -/
def extractFlat (a : Matrix α) (positions : List Nat) : Except Fault (Matrix α) := do
  checkIndices positions a.size
  let positions := positions.toArray
  return build 1 positions.size fun _ j => a.entryAt (positions.getD j 0)

def element (a : Matrix α) (i : Int64) : Except Fault α := do
  return a.entryAt (← Progression.indexBelow i a.size)

def element₂ (a : Matrix α) (row col : Int64) : Except Fault α := do
  let i ← Progression.indexBelow row a.rows
  let j ← Progression.indexBelow col a.cols
  return a.entry i j

/-- The positions of listed rows and columns, row after row, with their ranks in
the two lists. -/
def crossing (rows cols : List Nat) : List ((Nat × Nat) × (Nat × Nat)) :=
  rows.zipIdx.flatMap fun (r, i) => cols.zipIdx.map fun (c, j) => ((r, c), (i, j))

end Matrix

/-- Writing into a matrix. What was written before a failure is kept. -/
abbrev Overwriting (α : Type) := ExceptT Fault (StateM (Matrix α))

namespace Overwriting

variable {α : Type} [Inhabited α]

open MatrixCode.Matrix

def insertBlock (source : Matrix α) (r₀ r₁ c₀ c₁ : Nat) : Overwriting α Unit := do
  let target ← get
  let (r, rows) ← interval r₀ r₁ target.rows
  let (c, cols) ← interval c₀ c₁ target.cols
  if source.shape ≠ (rows, cols) then throw (mismatch "insert" target source)
  set (target.paste r c source)

def fillBlock (x : α) (r₀ r₁ c₀ c₁ : Nat) : Overwriting α Unit := do
  let target ← get
  let (r, rows) ← interval r₀ r₁ target.rows
  let (c, cols) ← interval c₀ c₁ target.cols
  set (target.paste r c (fill rows cols x))

def insertIndices (source : Matrix α) (rows cols : List Nat) : Overwriting α Unit := do
  let target ← get
  checkIndices rows target.rows
  checkIndices cols target.cols
  if source.shape ≠ (rows.length, cols.length) then throw (mismatch "insert" target source)
  set (target.setAll ((crossing rows cols).map fun (at_, i, j) => (at_, source.entry i j)))

/-- Writes the elements of the source, row by row, to the listed positions. -/
def insertFlat (source : Matrix α) (positions : List Nat) : Overwriting α Unit := do
  let target ← get
  checkIndices positions target.size
  if source.size ≠ positions.length then throw (mismatch "insert" target source)
  set (target.setAll (positions.zipIdx.map fun (p, k) => (target.position p, source.entryAt k)))

def fillIndices (x : α) (rows cols : List Nat) : Overwriting α Unit := do
  let target ← get
  checkIndices rows target.rows
  checkIndices cols target.cols
  set (target.setAll ((crossing rows cols).map fun (at_, _) => (at_, x)))

def fillFlat (x : α) (positions : List Nat) : Overwriting α Unit := do
  let target ← get
  checkIndices positions target.size
  set (target.setAll (positions.map fun p => (target.position p, x)))

/-- The matrix after a write that succeeds. -/
def result (write : Overwriting α Unit) (target : Matrix α) : Except Fault (Matrix α) :=
  Prod.snd <$> completed write target

end Overwriting

namespace Matrix

variable {α : Type} [Inhabited α]

def insertBlock (target source : Matrix α) (r₀ r₁ c₀ c₁ : Nat) : Except Fault (Matrix α) :=
  (Overwriting.insertBlock source r₀ r₁ c₀ c₁).result target

def fillBlock (target : Matrix α) (x : α) (r₀ r₁ c₀ c₁ : Nat) : Except Fault (Matrix α) :=
  (Overwriting.fillBlock x r₀ r₁ c₀ c₁).result target

def insertIndices (target source : Matrix α) (rows cols : List Nat) : Except Fault (Matrix α) :=
  (Overwriting.insertIndices source rows cols).result target

def insertFlat (target source : Matrix α) (positions : List Nat) : Except Fault (Matrix α) :=
  (Overwriting.insertFlat source positions).result target

def fillIndices (target : Matrix α) (x : α) (rows cols : List Nat) : Except Fault (Matrix α) :=
  (Overwriting.fillIndices x rows cols).result target

def fillFlat (target : Matrix α) (x : α) (positions : List Nat) : Except Fault (Matrix α) :=
  (Overwriting.fillFlat x positions).result target

end Matrix
end MatrixCode
