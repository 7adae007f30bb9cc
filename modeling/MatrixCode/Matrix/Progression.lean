import MatrixCode.Matrix.Fault

/-!
Indices computed from words: single indices, ends of intervals, and arithmetic
progressions. All conversions are checked.
-/

namespace MatrixCode
namespace Progression

-- Powers of natural numbers are the core ones, whatever other instances are in scope.
attribute [local instance (high)] instPowNat

/-- The length that no index reaches. -/
def unbounded : Nat := 2 ^ (64 : Nat) - 1

/-- A length as a word; lengths beyond the range of a word wrap around. -/
def lengthWord (length : Nat) : Int64 := Int64.ofNat length

def indexBelow (i : Int64) (length : Nat) : Except Fault Nat :=
  if 0 ≤ i.toInt ∧ i.toInt.toNat < length then return i.toInt.toNat
  else throw (.indexOutOfBounds i length)

def toIndex (i : Int64) : Except Fault Nat :=
  if 0 ≤ i.toInt then return i.toInt.toNat else throw (.negativeIndex i)

/-- One past the index that a word holds. -/
def toIndexAfter (i : Int64) : Except Fault Nat :=
  match Word.add? i 1 with
  | some next => toIndex next
  | none => throw .indexOverflow

/-- The indices `i, i + step, …` up to and including `last`. Fails at the first that is negative, and
ends where the next one is no word. -/
def members (step last i : Int64) : Except Fault (List Nat) := do
  if (0 < step ∧ i ≤ last) ∨ (step < 0 ∧ last ≤ i) then
    let first ← indexBelow i unbounded
    match next : Word.add? i step with
    | some j =>
      have := Word.toInt_of_add? next
      return first :: (← members step last j)
    | none => return [first]
  else return []
termination_by (if 0 < step then last.toInt + 1 - i.toInt else i.toInt + 1 - last.toInt).toNat
decreasing_by
  simp only [Int64.lt_iff_toInt_lt, Int64.le_iff_toInt_le, Int64.toInt_zero] at *
  split <;> omega

/-- The indices `start, start + step, …` up to and including `last`. -/
def sequence (start step last : Int64) : Except Fault (List Nat) :=
  if step = 0 then throw .zeroStep else members step last start

/-- The indices `start, start + step, …` up to the end of a dimension, or down to
zero when the step is negative. -/
def sequenceTo (start step : Int64) (length : Nat) : Except Fault (List Nat) :=
  if step.toInt < 0 then sequence start step 0
  else sequence start step (lengthWord length - 1)

/-- Division toward zero. -/
def divideInteger (a b : Int64) : Except Fault Int64 :=
  match Word.div? a b with
  | some q => return q
  | none => throw (.integerDivision a b)

end Progression
end MatrixCode
