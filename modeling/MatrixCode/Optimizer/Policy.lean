import MatrixCode.Variable.Basic

/-!
Policies: which scalar operands count as known when instructions are folded away.
A policy is a set of flags.
-/

namespace MatrixCode

structure Policy where
  bits : UInt8
  deriving DecidableEq, Repr, Inhabited

namespace Policy

def nothing : Policy := ⟨0⟩

/-- Expressions without free identifiers are known. -/
def constants : Policy := ⟨1⟩

/-- All scalars but temporaries are known. -/
def scalars : Policy := ⟨2⟩

def standard : Policy := scalars

def contains (p q : Policy) : Bool := p.bits &&& q.bits = q.bits

def union (p q : Policy) : Policy := ⟨p.bits ||| q.bits⟩

def knows (p : Policy) (v : Variable) : Bool :=
  v.kind.isScalar && (p.contains constants && v.constant || p.contains scalars && !v.temporary)

end Policy
end MatrixCode
