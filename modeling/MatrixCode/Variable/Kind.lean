/-!
Handles and kinds of variables.
-/

namespace MatrixCode

/-- A position in the variable table. It may lie outside the table. -/
structure Handle where
  index : Nat
  deriving DecidableEq, Repr, Inhabited

namespace Handle

def text (h : Handle) : String := "v" ++ toString h.index

end Handle

/-- What a variable holds. A sequence of indices serves as a range operand only. -/
inductive Kind where
  | integer
  | double
  | matrix
  | sequence
  deriving DecidableEq, Repr, Inhabited

namespace Kind

def isScalar : Kind → Bool
  | integer | double => true
  | matrix | sequence => false

def name : Kind → String
  | integer => "integer"
  | double => "double"
  | matrix => "matrix"
  | sequence => "sequence"

def all : List Kind := [integer, double, matrix, sequence]

def ofName? (name : String) : Option Kind := all.find? fun k => k.name = name

def describe (kinds : List Kind) : String := ", ".intercalate (kinds.map name)

end Kind
end MatrixCode
