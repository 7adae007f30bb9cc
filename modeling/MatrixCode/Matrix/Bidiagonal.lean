import MatrixCode.Matrix.Assembly
import MatrixCode.Matrix.Reduction

/-!
Matrices with entries on the diagonal and just above it, times the orthogonal
columns on both sides. A matrix at least as high as wide is brought into this form
by reflections; rotations then make the entries above the diagonal vanish. An
entry is dropped when it is at rounding level: relative to its two neighbours on
the diagonal if it stands above it, and absolutely if it stands on it. The matrix
is meant to have entries of magnitude up to one.
-/

namespace MatrixCode
namespace Matrix

/-- Magnitude and sign of a number; the sign of zero is positive. -/
def signed (x : Float) : Float × Float := if 0.0 ≤ x then (x, 1.0) else (-x, -1.0)

/-- One or minus one, by the sign of a number; what is not a number stays as it is. -/
def signOf (x : Float) : Float := if x.isNaN then x else if x < 0.0 then -1.0 else 1.0

/-- A reflection at the plane with a unit normal, times a sign. -/
structure Reflection where
  normal : List Float
  sign : Float

namespace Reflection

/-- The reflection that turns a vector into a multiple of the first axis, and that
multiple. No reflection is needed for a vector of no length. -/
def ofVector : List Float → Option Reflection × Float
  | [] => (none, 0.0)
  | x :: xs =>
    let square := total ((x :: xs).map fun y => y * y)
    let length := square.sqrt
    let (magnitude, sign) := signed x
    let first := sign * length
    let factor := (square + magnitude * length) * 2.0
    if factor == 0.0 then (none, first)
    else
      let normal := ((x + first) :: xs).map (· / factor.sqrt)
      let unit := (total (normal.map fun y => y * y)).sqrt
      (some ⟨normal.map (· / unit), signOf (-first)⟩, -first)

/-- Reflects the columns of a matrix, in the rows from `top` on. -/
def apply (r : Reflection) (top : Nat) (m : Matrix Float) : Matrix Float :=
  let factors := (List.range m.cols).map fun j =>
    total (List.zipWith (· * ·) r.normal ((m.column j).drop top)) * (r.sign * -2.0)
  build m.rows m.cols fun i j =>
    if i < top then m.entry i j
    else factors.getD j 0.0 * r.normal.getD (i - top) 0.0 + r.sign * m.entry i j

end Reflection

def reflect (r : Option Reflection) (top : Nat) (m : Matrix Float) : Matrix Float :=
  match r with
  | some r => r.apply top m
  | none => m

structure Rotation where
  cosine : Float
  sine : Float

namespace Rotation

def identity : Rotation := ⟨1.0, 0.0⟩

def inverse (r : Rotation) : Rotation := ⟨r.cosine, -r.sine⟩

def turn (r : Rotation) (x y : Float) : Float × Float :=
  (x * r.cosine - r.sine * y, r.sine * x + y * r.cosine)

def turnColumns (r : Rotation) (p q : Nat) (m : Matrix Float) : Matrix Float :=
  build m.rows m.cols fun i j =>
    if j = p then (r.turn (m.entry i p) (m.entry i q)).1
    else if j = q then (r.turn (m.entry i p) (m.entry i q)).2
    else m.entry i j

/-- The rotation after which the second coordinate is zero, and the first one then;
none if the second coordinate is zero already. -/
def ontoFirst? (x y : Float) : Option (Rotation × Float) :=
  if y == 0.0 then none
  else
    let (magnitude, sign) := signed x
    let length := (magnitude * magnitude + y * y).sqrt
    some (⟨magnitude / length, (-sign * y) / length⟩, sign * length)

/-- The rotation after which the first coordinate is zero, and the second one then;
none if the first coordinate is zero already. -/
def ontoSecond? (x y : Float) : Option (Rotation × Float) :=
  if x == 0.0 then none
  else
    let (magnitude, sign) := signed y
    let length := (magnitude * magnitude + x * x).sqrt
    some (⟨magnitude / length, (x * sign) / length⟩, sign * length)

/-- The rotation with cosine and sine in a given ratio, and the sign that was taken
out of them. -/
def ofRatio (cosine sine : Float) : Rotation × Float :=
  let (magnitude, sign) := signed cosine
  let length := (magnitude * magnitude + sine * sine).sqrt
  if 0.0 < length then (⟨magnitude / length, sine / (sign * length)⟩, sign) else (identity, 1.0)

end Rotation

structure Bidiagonal where
  diagonal : List Float
  /-- The entries right of the diagonal, one less than there are on it. -/
  above : List Float
  /-- The orthogonal columns on the left. -/
  left : Matrix Float
  /-- The orthogonal columns on the right. -/
  right : Matrix Float

namespace Bidiagonal

/-- A matrix with a one in front of its diagonal. -/
def border (m : Matrix Float) : Matrix Float :=
  build (m.rows + 1) (m.cols + 1) fun
    | 0, 0 => 1.0
    | i + 1, j + 1 => m.entry i j
    | _, _ => 0.0

/-- Reduces `n` columns: the first column is reflected onto the first axis, then what
is left of the first row onto the second axis, and so on with the rest. -/
def reduce : Nat → Matrix Float → Bidiagonal
  | 0, m => ⟨[], [], fill m.rows 0 0.0, fill 0 0 0.0⟩
  | n + 1, m =>
    let (down, head) := Reflection.ofVector (m.column 0)
    let rest := reflect down 0 (build m.rows n fun i j => m.entry i (j + 1))
    let (across, next) := Reflection.ofVector (rest.row 0)
    let below := build n (m.rows - 1) fun j i => rest.entry (i + 1) j
    let inner := reduce n (reflect across 0 below).transpose
    { diagonal := head.abs :: inner.diagonal
      above := if n = 0 then [] else next.abs :: inner.above
      left := reflect down 0 (border inner.left)
      right := reflect across 1 (border inner.right) }

def ofTall (m : Matrix Float) : Bidiagonal := reduce m.cols m

def roundingLevel : Float := 5.0 * 2.220446049250313e-16

def diagonalAt (b : Bidiagonal) (i : Nat) : Float := b.diagonal.getD i 0.0

def aboveAt (b : Bidiagonal) (i : Nat) : Float := b.above.getD i 0.0

def setDiagonal (b : Bidiagonal) (i : Nat) (x : Float) : Bidiagonal :=
  { b with diagonal := b.diagonal.set i x }

def setAbove (b : Bidiagonal) (i : Nat) (x : Float) : Bidiagonal :=
  { b with above := b.above.set i x }

def turnLeft (b : Bidiagonal) (r : Rotation) (p q : Nat) : Bidiagonal :=
  { b with left := r.turnColumns p q b.left }

def turnRight (b : Bidiagonal) (r : Rotation) (p q : Nat) : Bidiagonal :=
  { b with right := r.turnColumns p q b.right }

/-- Moves the entry `x` of row `i`, now in column `k + 1`, out of that column by
turning the row with row `k + 1`; it goes on through the given number of columns. -/
def pushRight (i : Nat) : Nat → Nat → Float → Bidiagonal → Bidiagonal
  | 0, _, _, b => b
  | columns + 1, k, x, b =>
    match Rotation.ontoSecond? x (b.diagonalAt (k + 1)) with
    | none => b
    | some (r, length) =>
      let b := (b.setDiagonal (k + 1) length).turnLeft r i (k + 1)
      if columns = 0 then b
      else
        let next := b.aboveAt (k + 1)
        pushRight i columns (k + 1) (-r.sine * next) (b.setAbove (k + 1) (next * r.cosine))

/-- Clears row `i`, whose diagonal entry is zero, with the rows down to `last`. -/
def clearRow (b : Bidiagonal) (i last : Nat) : Bidiagonal :=
  pushRight i (last - i) i (b.aboveAt i) (b.setAbove i 0.0)

/-- Moves the entry `y` of column `last`, now in row `k`, out of that row by turning
the column with column `k`; it goes on up to the first row. -/
def pushUp (last : Nat) : Nat → Float → Bidiagonal → Bidiagonal
  | k, y, b =>
    match Rotation.ontoFirst? (b.diagonalAt k) y with
    | none => b
    | some (r, length) =>
      let b := (b.setDiagonal k length).turnRight r k last
      match k with
      | 0 => b
      | k + 1 =>
        let next := b.aboveAt k
        pushUp last k (r.sine * next) (b.setAbove k (next * r.cosine))

/-- Clears column `i + 1`, whose diagonal entry is zero, with the columns before it. -/
def clearColumn (b : Bidiagonal) (i : Nat) : Bidiagonal :=
  pushUp (i + 1) i (b.aboveAt i) (b.setAbove i 0.0)

/-- Takes the diagonal entry `i` as zero and clears its row and its column. -/
def drop (b : Bidiagonal) (i last : Nat) : Bidiagonal :=
  let b := (b.setDiagonal i 0.0).clearRow i last
  match i with
  | 0 => b
  | i + 1 => b.clearColumn i

/-- The entry above the diagonal in row `i` is at rounding level. -/
def isSplit (b : Bidiagonal) (i : Nat) : Bool :=
  b.aboveAt i == 0.0 ||
    (b.aboveAt i).abs ≤ roundingLevel * ((b.diagonalAt (i + 1)).abs + (b.diagonalAt i).abs)

/-- The diagonal entry `i` is at rounding level. -/
def isNull (b : Bidiagonal) (i : Nat) : Bool := (b.diagonalAt i).abs ≤ roundingLevel

/-- The last position that is still coupled to the one before it, from a given
position down; zero if there is none. -/
def lastCoupled : Nat → Bidiagonal → Nat × Bidiagonal
  | 0, b => (0, b)
  | i + 1, b =>
    if b.isSplit i then lastCoupled i (b.setAbove i 0.0)
    else if b.isNull i then lastCoupled i (b.drop i (i + 1))
    else if b.isNull (i + 1) then lastCoupled i ((b.setDiagonal (i + 1) 0.0).clearColumn i)
    else (i + 1, b)

/-- The first position of the coupled block that ends at `last`, from a given
position down. -/
def firstCoupled (last : Nat) : Nat → Bidiagonal → Nat × Bidiagonal
  | 0, b => (0, b)
  | i + 1, b =>
    if b.isSplit i then (i + 1, b.setAbove i 0.0)
    else if b.isNull i then (i + 1, b.drop i last)
    else firstCoupled last i b

/-- The eigenvalue of a symmetric matrix of two rows that is nearer to its last entry. -/
def shift (first last cross : Float) : Float :=
  let square := cross * cross
  if square == 0.0 then last
  else
    let half := (first - last) * 0.5
    last - square / (half + signOf half * (half * half + square).sqrt)

/-- Chases the entry outside the two diagonals down the block that begins at `start`:
the columns at `k` are turned so that `y` vanishes beside `x`, then the rows so that
the entry below the diagonal vanishes. -/
def chase (start : Nat) : Nat → Nat → Float → Float → Bidiagonal → Bidiagonal
  | 0, _, _, _, b => b
  | rows + 1, k, x, y, b =>
    match Rotation.ontoFirst? x y with
    | none => b
    | some (columnTurn, length) =>
      let (corner, upper) := columnTurn.turn (b.diagonalAt k) (b.aboveAt k)
      let (lower, next) := columnTurn.turn 0.0 (b.diagonalAt (k + 1))
      let far := if rows = 0 then 0.0 else b.aboveAt (k + 1)
      let (rowTurn, head) := (Rotation.ontoFirst? corner lower).getD (.identity, corner)
      let (upper, next) := rowTurn.turn upper next
      let (outside, far) := rowTurn.turn 0.0 far
      let b := if start < k then b.setAbove (k - 1) length else b
      let b := ((b.setDiagonal k head).setDiagonal (k + 1) next).setAbove k upper
      let b := if rows = 0 then b else b.setAbove (k + 1) far
      let b := (b.turnRight columnTurn k (k + 1)).turnLeft rowTurn k (k + 1)
      chase start rows (k + 1) upper outside b

/-- One implicitly shifted step on a block of three or more rows. -/
def step (b : Bidiagonal) (start last : Nat) : Bidiagonal :=
  let d := b.diagonalAt (last - 1)
  let e := b.diagonalAt last
  let f := b.aboveAt (last - 1)
  let g := b.aboveAt (last - 2)
  let s := shift (d * d + g * g) (e * e + f * f) (d * f)
  let first := b.diagonalAt start
  chase start (last - start) start (first * first - s) (first * b.aboveAt start) b

/-- Makes a block of two rows diagonal. -/
def solvePair (b : Bidiagonal) (k : Nat) : Bidiagonal :=
  let d := b.diagonalAt k
  let f := b.aboveAt k
  let e := b.diagonalAt (k + 1)
  let width := ((d + e) * (d + e) + f * f).sqrt + ((d - e) * (d - e) + f * f).sqrt
  let small := d * e * 2.0 / width
  let large := 0.5 * width
  let (r, s) := Rotation.ofRatio (d * f) (small * small - d * d)
  let small := small * s
  let (l, t) := Rotation.ofRatio ((d * r.cosine + f * r.sine) / small) (e * r.sine / small)
  let b := ((b.setDiagonal k (small * t)).setDiagonal (k + 1) (large * s * t)).setAbove k 0.0
  (b.turnLeft l.inverse k (k + 1)).turnRight r.inverse k (k + 1)

/-- Splits off positions from the end until none is coupled, in at most the given
number of steps. -/
def diagonalizeFrom : Nat → Nat → Bidiagonal → Bidiagonal
  | 0, _, b => b
  | steps + 1, last, b =>
    let (last, b) := lastCoupled last b
    if last = 0 then b
    else
      let (start, b) := firstCoupled last (last - 1) b
      if last - start = 1 then diagonalizeFrom steps (last - 1) (b.solvePair start)
      else diagonalizeFrom steps last (b.step start last)

/-- Makes the matrix diagonal. A position needs two or three steps; the number allowed
is far beyond that. -/
def diagonalize (b : Bidiagonal) : Bidiagonal :=
  diagonalizeFrom (100 * b.diagonal.length) (b.diagonal.length - 1) b

end Bidiagonal

end Matrix
end MatrixCode
