/-!
Dense matrices, stored row by row. A matrix without elements keeps both of its
dimensions. `entry` is total, so that a kernel is a formula for the entries of
its result: inside the matrix `entry (build rows cols f) i j` is `f i j`.
-/

namespace MatrixCode

structure Matrix (α : Type) where
  rows : Nat
  cols : Nat
  /-- The elements, row after row. -/
  elements : Array α
  size_eq : elements.size = rows * cols
  deriving Repr

namespace Matrix

variable {α β : Type}

/-- The matrix with entry `f i j` in row `i` and column `j`. -/
def build (rows cols : Nat) (f : Nat → Nat → α) : Matrix α where
  rows := rows
  cols := cols
  elements := Array.ofFn fun k : Fin (rows * cols) => f (k.val / cols) (k.val % cols)
  size_eq := Array.size_ofFn

/-- The matrix with the given elements, row after row; none if their number is
not the number of positions. -/
def ofRows? (rows cols : Nat) (elements : Array α) : Option (Matrix α) :=
  if h : elements.size = rows * cols then some ⟨rows, cols, elements, h⟩ else none

instance : Inhabited (Matrix α) := ⟨⟨0, 0, #[], rfl⟩⟩

/-- The element in row `i` and column `j`; a default outside the matrix. -/
def entry [Inhabited α] (m : Matrix α) (i j : Nat) : α :=
  if i < m.rows ∧ j < m.cols then m.elements.getD (i * m.cols + j) default else default

def size (m : Matrix α) : Nat := m.rows * m.cols

def isEmpty (m : Matrix α) : Bool := m.size = 0

def shape (m : Matrix α) : Nat × Nat := (m.rows, m.cols)

def isSquare (m : Matrix α) : Bool := m.rows = m.cols

def isVector (m : Matrix α) : Bool := m.rows = 1 || m.cols = 1

def map (f : α → β) (m : Matrix α) : Matrix β where
  rows := m.rows
  cols := m.cols
  elements := m.elements.map f
  size_eq := by rw [Array.size_map, m.size_eq]

/-- Combines entries of the same position; the shape is that of the first matrix. -/
def zipWith [Inhabited α] (f : α → α → α) (a b : Matrix α) : Matrix α :=
  build a.rows a.cols fun i j => f (a.entry i j) (b.entry i j)

def fill (rows cols : Nat) (x : α) : Matrix α := build rows cols fun _ _ => x

def transpose [Inhabited α] (m : Matrix α) : Matrix α := build m.cols m.rows fun i j => m.entry j i

def swapRows [Inhabited α] (m : Matrix α) (r s : Nat) : Matrix α :=
  build m.rows m.cols fun i j => m.entry (if i = r then s else if i = s then r else i) j

/-- The matrix with one entry replaced; outside the matrix nothing changes. -/
def set (m : Matrix α) (i j : Nat) (x : α) : Matrix α :=
  if i < m.rows ∧ j < m.cols then
    { m with
      elements := m.elements.setIfInBounds (i * m.cols + j) x
      size_eq := by rw [Array.size_setIfInBounds, m.size_eq] }
  else m

/-- Writes one element after the other, so that the last write to a position wins. -/
def setAll (m : Matrix α) (writes : List ((Nat × Nat) × α)) : Matrix α :=
  writes.foldl (fun m ((i, j), x) => m.set i j x) m

/-- Copies a matrix over the block whose upper left corner is row `r` and column `c`. -/
def paste [Inhabited α] (m : Matrix α) (r c : Nat) (block : Matrix α) : Matrix α :=
  build m.rows m.cols fun i j =>
    if r ≤ i ∧ i < r + block.rows ∧ c ≤ j ∧ j < c + block.cols then block.entry (i - r) (j - c)
    else m.entry i j

def byColumns [Inhabited α] (m : Matrix α) : List α :=
  (List.range m.size).map fun k => m.entry (k % m.rows) (k / m.rows)

def row [Inhabited α] (m : Matrix α) (i : Nat) : List α := (List.range m.cols).map (m.entry i)

def column [Inhabited α] (m : Matrix α) (j : Nat) : List α :=
  (List.range m.rows).map fun i => m.entry i j

/-- The elements on the main diagonal, as far as the shorter side goes. -/
def diagonal [Inhabited α] (m : Matrix α) : List α :=
  (List.range (min m.rows m.cols)).map fun i => m.entry i i

end Matrix
end MatrixCode
