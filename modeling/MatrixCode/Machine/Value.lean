import MatrixCode.Matrix.Basic
import MatrixCode.Number.Binary
import MatrixCode.Variable.Table

/-!
Values, and stores that bind them to handles. A literal needs no binding: its
value is read off its name.
-/

namespace MatrixCode

inductive Value where
  | integer (value : Int64)
  | double (value : Float)
  | matrix (value : Matrix Float)
  deriving Repr

namespace Value

def kind : Value → Kind
  | integer _ => .integer
  | double _ => .double
  | matrix _ => .matrix

/-- The value that storage of a kind starts with. -/
def initial? : Kind → Option Value
  | .integer => some (integer 0)
  | .double => some (double 0.0)
  | .matrix => some (matrix (.fill 0 0 0.0))
  | .sequence => none

def matrix? : Value → Option (Matrix Float)
  | matrix m => some m
  | _ => none

end Value

/-- The values of variables. The handles ascend, so that a store is given by what it binds. -/
structure Store where
  entries : List (Handle × Value)
  ascending : entries.Pairwise fun a b => a.1.index < b.1.index
  deriving Repr

namespace Store

def empty : Store := ⟨[], .nil⟩

def size (s : Store) : Nat := s.entries.length

def get? (s : Store) (h : Handle) : Option Value := s.entries.lookup h

def contains (s : Store) (h : Handle) : Bool := (s.get? h).isSome

def erase (s : Store) (h : Handle) : Store where
  entries := s.entries.filter fun entry => entry.1 ≠ h
  ascending := s.ascending.filter _

def set (s : Store) (h : Handle) (value : Value) : Store where
  entries := (s.entries.filter fun entry => entry.1.index < h.index) ++
    (h, value) :: s.entries.filter fun entry => h.index < entry.1.index
  ascending := by
    refine List.pairwise_append.mpr ⟨s.ascending.filter _, List.pairwise_cons.mpr
      ⟨fun b hb => ?_, s.ascending.filter _⟩, fun a ha b hb => ?_⟩
    · exact of_decide_eq_true (List.mem_filter.mp hb).2
    · have below : a.1.index < h.index := of_decide_eq_true (List.mem_filter.mp ha).2
      cases hb with
      | head => exact below
      | tail _ hb => exact Nat.lt_trans below (of_decide_eq_true (List.mem_filter.mp hb).2)

def matrix? (s : Store) (h : Handle) : Option (Matrix Float) := (s.get? h).bind Value.matrix?

/-- Takes a matrix out of the store; any other value stays. -/
def takeMatrix (s : Store) (h : Handle) : Option (Matrix Float) × Store :=
  match s.matrix? h with
  | some m => (some m, s.erase h)
  | none => (none, s)

def wrongKind {α : Type} (v : Variable) (value : Value) (expected : String) : Outcome α :=
  report (.failed "read" (.wrongKind v.name value.kind expected))

def integer (s : Store) (t : Table) (h : Handle) : Outcome Int64 := do
  let v ← t.lookup h
  if v.isLiteral then
    match v.literalInteger? with
    | some x => return x
    | none => report (.unbound v.name)
  else
    match s.get? h with
    | some (.integer x) => return x
    | some value => wrongKind v value "integer"
    | none => report (.unbound v.name)

/-- The value of a scalar literal or variable; integers are widened. -/
def double (s : Store) (t : Table) (h : Handle) : Outcome Float := do
  let v ← t.lookup h
  if v.isLiteral then
    match v.literalDouble? with
    | some x => return x
    | none => report (.unbound v.name)
  else
    match s.get? h with
    | some (.integer x) => return Binary.ofInt x.toInt
    | some (.double x) => return x
    | some value => wrongKind v value "scalar"
    | none => report (.unbound v.name)

/-- The value of an integer, or of a double that is a whole number. -/
def index (s : Store) (t : Table) (h : Handle) : Outcome Int64 := do
  if (← t.fetchKind h) = .double then
    let x ← s.double t h
    if Binary.isWhole x then return Binary.toWord x
    else report (.failed "index" (.notWhole x))
  else s.integer t h

/-- The name of a handle that may not be in the table. -/
def nameOf (t : Table) (h : Handle) : String := (t.get? h).elim h.text Variable.name

def matrix (s : Store) (t : Table) (h : Handle) : Outcome (Matrix Float) := do
  match s.get? h with
  | some (.matrix m) => return m
  | some value => wrongKind (← t.fetch h) value "matrix"
  | none => report (.unbound (nameOf t h))

end Store
end MatrixCode
