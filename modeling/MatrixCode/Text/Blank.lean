/-!
White space around text, in the sense of the Unicode property of that name.
-/

namespace MatrixCode
namespace Blank

/-- The code points with the property White_Space, as closed intervals. -/
def intervals : List (Nat × Nat) :=
  [(0x09, 0x0d), (0x20, 0x20), (0x85, 0x85), (0xa0, 0xa0), (0x1680, 0x1680), (0x2000, 0x200a),
   (0x2028, 0x2029), (0x202f, 0x202f), (0x205f, 0x205f), (0x3000, 0x3000)]

def isBlank (c : Char) : Bool :=
  intervals.any fun (low, high) => low ≤ c.toNat ∧ c.toNat ≤ high

def trimLeft (cs : List Char) : List Char := cs.dropWhile isBlank

def trim (cs : List Char) : List Char := (trimLeft (trimLeft cs).reverse).reverse

end Blank
end MatrixCode
