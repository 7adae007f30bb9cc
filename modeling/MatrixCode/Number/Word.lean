/-!
Checked arithmetic on 64-bit words. Each operation is the integer one, with
`none` where the integer result is not a word; division goes toward zero.
-/

namespace MatrixCode
namespace Word

/-- The word with this integer value, if there is one. -/
def ofInt? (i : Int) : Option Int64 :=
  if Int64.minValue.toInt ≤ i ∧ i ≤ Int64.maxValue.toInt then some (Int64.ofInt i) else none

def add? (a b : Int64) : Option Int64 := ofInt? (a.toInt + b.toInt)

def sub? (a b : Int64) : Option Int64 := ofInt? (a.toInt - b.toInt)

def mul? (a b : Int64) : Option Int64 := ofInt? (a.toInt * b.toInt)

def div? (a b : Int64) : Option Int64 :=
  if b = 0 then none else ofInt? (a.toInt.tdiv b.toInt)

def neg? (a : Int64) : Option Int64 := ofInt? (-a.toInt)

def abs? (a : Int64) : Option Int64 := ofInt? a.toInt.natAbs

/-- A checked sum is the sum of the integers. -/
theorem toInt_of_add? {a b c : Int64} (h : add? a b = some c) : c.toInt = a.toInt + b.toInt := by
  unfold add? ofInt? at h
  split at h
  · next range =>
      cases h
      exact Int64.toInt_ofInt_of_le range.1 (Int.lt_of_le_of_lt range.2 (by decide))
  · cases h

def text (a : Int64) : String := toString a.toInt

end Word
end MatrixCode
