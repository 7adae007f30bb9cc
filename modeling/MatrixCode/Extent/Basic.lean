import MatrixCode.Variable.Table

/-!
Extents: what a range operand selects along one dimension. A range is a block
when its step is absent or the literal one, and is listed otherwise. This looks
at the form of the range only, never at values, so that a program means the same
whether it is run or written out.
-/

namespace MatrixCode

inductive Endpoint where
  | zero
  | one
  /-- The value of a variable. -/
  | value (h : Handle)
  /-- One past the value of a variable. -/
  | past (h : Handle)
  /-- The length of the dimension. -/
  | length
  deriving DecidableEq, Repr

inductive Part where
  | single (h : Handle)
  /-- From `first` to `last` inclusive, by `step` or by one. -/
  | span (first : Handle) (step : Option Handle) (last : Handle)
  /-- From `first`, or from zero, to the end of the dimension. -/
  | toEnd (first step : Option Handle)
  deriving DecidableEq, Repr

inductive Extent where
  /-- Consecutive indices from `start` up to but not including `stop`. -/
  | block (start stop : Endpoint)
  /-- The indices of one part after the other. -/
  | listed (parts : List Part)
  deriving DecidableEq, Repr

namespace IndexRange

mutual

/-- The parts of a range, with unions taken apart. -/
def parts : IndexRange → List Part
  | list items => items.map .single
  | span first step last => [.span first step last]
  | toEnd first step => [.toEnd first step]
  | union ranges => partsAll ranges

def partsAll : List IndexRange → List Part
  | [] => []
  | range :: ranges => range.parts ++ partsAll ranges

end

end IndexRange

namespace Extent

def isBlock : Extent → Bool
  | block .. => true
  | listed _ => false

/-- The step is absent, or is the literal one. -/
def isUnitStep (t : Table) : Option Handle → Outcome Bool
  | none => return true
  | some step => return (← t.fetch step).isLiteralOne

def ofRange (t : Table) (range : IndexRange) : Outcome Extent := do
  match range with
  | .span first step last =>
    if ← isUnitStep t step then return block (.value first) (.past last)
    else return listed range.parts
  | .toEnd first step =>
    if ← isUnitStep t step then return block (first.elim .zero .value) .length
    else return listed range.parts
  | .list _ | .union _ => return listed range.parts

/-- The extent of a range operand: a scalar selects one index, a matrix none. -/
def classify (t : Table) (h : Handle) : Outcome Extent := do
  let v ← t.lookup h
  match v.content with
  | .integer | .double => return block (.value h) (.past h)
  | .sequence range => ofRange t range
  | .matrix => report (.invalidRange v.name v.kind.name)

end Extent

/-- The part of a matrix that a range expression addresses. -/
inductive Addressing where
  /-- Elements counted row by row. -/
  | flat (elements : Extent)
  | grid (rows cols : Extent)
  deriving DecidableEq, Repr

namespace Addressing

def isFlat : Addressing → Bool
  | flat _ => true
  | grid .. => false

/-- The rows; elements counted row by row are taken to be in one row. -/
def rows : Addressing → Extent
  | flat _ => .block .zero .one
  | grid rows _ => rows

/-- The columns, or the elements counted row by row. -/
def cols : Addressing → Extent
  | flat elements => elements
  | grid _ cols => cols

def isBlock (a : Addressing) : Bool := a.rows.isBlock && a.cols.isBlock

/-- Classifies one range operand, or one for rows and one for columns. -/
def classify (t : Table) : List Handle → Outcome Addressing
  | [elements] => return flat (← Extent.classify t elements)
  | [rows, cols] => return grid (← Extent.classify t rows) (← Extent.classify t cols)
  | range => report (.invalidRange (toString range.length ++ " range operands") "range")

end Addressing
end MatrixCode
