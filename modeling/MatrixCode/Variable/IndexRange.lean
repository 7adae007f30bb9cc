import MatrixCode.Variable.Kind

/-!
Index ranges, written over handles of scalar variables.
-/

namespace MatrixCode

/-- A selection of rows, columns or elements. -/
inductive IndexRange where
  /-- Listed indices, `[1, 3, 5]`. -/
  | list (items : List Handle)
  /-- From `first` to `last` inclusive, by `step` or by one. -/
  | span (first : Handle) (step : Option Handle) (last : Handle)
  /-- From `first`, or from zero, to the end of the dimension. -/
  | toEnd (first step : Option Handle)
  /-- One range after the other, `[1:3, 7]`. -/
  | union (parts : List IndexRange)
  deriving Repr, Inhabited

namespace IndexRange

mutual

/-- The handles of a range, in the order in which they are written. -/
def referenced : IndexRange → List Handle
  | list items => items
  | span first step last => first :: step.toList ++ [last]
  | toEnd first step => first.toList ++ step.toList
  | union parts => referencedAll parts

def referencedAll : List IndexRange → List Handle
  | [] => []
  | part :: parts => part.referenced ++ referencedAll parts

end

mutual

def map (f : Handle → Handle) : IndexRange → IndexRange
  | list items => list (items.map f)
  | span first step last => span (f first) (step.map f) (f last)
  | toEnd first step => toEnd (first.map f) (step.map f)
  | union parts => union (mapAll f parts)

def mapAll (f : Handle → Handle) : List IndexRange → List IndexRange
  | [] => []
  | part :: parts => part.map f :: mapAll f parts

end

end IndexRange

namespace Handle

def replace (source target h : Handle) : Handle := if h = source then target else h

end Handle
end MatrixCode
