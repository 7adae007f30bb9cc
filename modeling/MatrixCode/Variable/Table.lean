import MatrixCode.Error
import MatrixCode.Variable.Basic

/-!
The table of all variables of a family of equations. Handles are positions in
the table. Number literals are entered once: the table remembers the handle of
each literal name it has made. The first two entries are the integers zero and
one.
-/

namespace MatrixCode

structure Table where
  entries : Array Variable
  /-- The handles of the literals made by the table, by name. -/
  literals : List (String × Handle)
  deriving Repr, Inhabited

namespace Table

def size (t : Table) : Nat := t.entries.size

def get? (t : Table) (h : Handle) : Option Variable := t.entries[h.index]?

/-- The entry of a handle that is taken to be in the table. -/
def fetch (t : Table) (h : Handle) : Outcome Variable :=
  match t.get? h with
  | some v => .ok v
  | none => .error (.dangling h)

/-- The entry of a handle that may be wrong; an error says so. -/
def lookup (t : Table) (h : Handle) : Outcome Variable :=
  match t.get? h with
  | some v => .ok v
  | none => .error (.reported (.unknownVariable h))

def fetchKind (t : Table) (h : Handle) : Outcome Kind := Variable.kind <$> t.fetch h

def lookupKind (t : Table) (h : Handle) : Outcome Kind := Variable.kind <$> t.lookup h

def describe (t : Table) (hs : List Handle) : Outcome (List Kind) := hs.mapM t.fetchKind

def add (t : Table) (v : Variable) : Handle × Table :=
  (⟨t.size⟩, { t with entries := t.entries.push v })

/-- The handle of a literal, entered when it is new. -/
def intern (t : Table) (v : Variable) : Handle × Table :=
  match t.literals.lookup v.name with
  | some h => (h, t)
  | none =>
    let (h, t) := t.add v
    (h, { t with literals := (v.name, h) :: t.literals })

def integer (t : Table) (value : Int64) : Handle × Table := t.intern (.integerLiteral value)

def double (t : Table) (value : Float) : Handle × Table := t.intern (.doubleLiteral value)

def sequence (t : Table) (range : IndexRange) : Handle × Table :=
  t.add (.named ("seq" ++ toString t.size) (.sequence range))

def truncate (t : Table) (size : Nat) : Table where
  entries := t.entries.take size
  literals := t.literals.filter fun (_, h) => h.index < size

def modify (t : Table) (h : Handle) (f : Variable → Variable) : Table :=
  { t with entries := t.entries.modify h.index f }

def zero : Handle := ⟨0⟩

def one : Handle := ⟨1⟩

def initial : Table :=
  let (_, t) := Table.integer ⟨#[], []⟩ 0
  (t.integer 1).2

end Table
end MatrixCode
