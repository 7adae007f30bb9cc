import MatrixCode.Matrix.Assembly

/-!
Random numbers: a linear congruential generator on 64-bit words, and normal
samples made from pairs of uniform ones. Every sequence of samples is determined
by its seed.
-/

namespace MatrixCode

structure Generator where
  state : UInt64
  /-- The seed of the current sequence. -/
  seed : UInt64
  /-- The second normal sample of the last pair. -/
  spare : Option Float
  deriving DecidableEq, Repr

namespace Generator

def defaultSeed : UInt64 := 0x9e3779b97f4a7c15

/-- Spreads the bits of a seed; the state is never zero. -/
def mix (seed : UInt64) : UInt64 :=
  let z := seed + 0x9e3779b97f4a7c15
  let z := (z ^^^ (z >>> 30)) * 0xbf58476d1ce4e5b9
  let z := (z ^^^ (z >>> 27)) * 0x94d049bb133111eb
  let z := z ^^^ (z >>> 31)
  if z = 0 then defaultSeed else z

def ofSeed (seed : UInt64) : Generator := ⟨mix seed, seed, none⟩

def initial : Generator := ofSeed defaultSeed

def advance (state : UInt64) : UInt64 := 6364136223846793005 * state + 1

def step (g : Generator) : Generator := { g with state := advance g.state }

/-- The upper 53 bits of the state. -/
def bits (g : Generator) : UInt64 := g.state >>> 11

/-- The state as a number in `[0, 1)`. -/
def unit (g : Generator) : Float := g.bits.toFloat * (1.0 / 9007199254740992.0)

def uniform (g : Generator) : Float × Generator := (g.step.unit, g.step)

theorem toNat_advance (state : UInt64) :
    (advance state).toNat = (6364136223846793005 * state.toNat + 1) % 18446744073709551616 := by
  simp [advance, UInt64.toNat_add, UInt64.toNat_mul]

theorem toNat_shiftRight (state : UInt64) : (state >>> 11).toNat = state.toNat / 2048 := by
  rw [UInt64.toNat_shiftRight, Nat.shiftRight_eq_div_pow]
  rfl

/-- A state without upper bits is small. -/
theorem shiftRight_eq_zero_iff (state : UInt64) : state >>> 11 = 0 ↔ state.toNat < 2048 := by
  rw [← UInt64.toNat_inj, toNat_shiftRight]
  exact Nat.div_eq_zero_iff_lt (by decide)

/-- Of the small states only zero is followed by another. -/
theorem advance_shiftRight_ne_zero {state : UInt64} (small : state >>> 11 = 0) (nonzero : state ≠ 0) :
    advance state >>> 11 ≠ 0 := by
  have listed : ∀ n ∈ List.range 2048, n ≠ 0 →
      ¬(6364136223846793005 * n + 1) % 18446744073709551616 < 2048 := by
    decide +kernel
  rw [shiftRight_eq_zero_iff] at small
  rw [ne_eq, shiftRight_eq_zero_iff, toNat_advance]
  exact listed state.toNat (List.mem_range.mpr small) fun zero => nonzero (UInt64.toNat_inj.mp zero)

/-- How many small states stand in a row, from this one on. -/
def pending (state : UInt64) : Nat := if state = 0 then 2 else if state >>> 11 = 0 then 1 else 0

theorem pending_advance {state : UInt64} (small : state >>> 11 = 0) :
    pending (advance state) < pending state := by
  by_cases zero : state = 0
  · subst zero
    decide
  · have large := advance_shiftRight_ne_zero small zero
    have nonzero : advance state ≠ 0 := fun zero => large (by rw [zero]; rfl)
    simp [pending, zero, small, large, nonzero]

/-- Steps on until the sample is positive. -/
def toPositive (g : Generator) : Generator :=
  if g.bits = 0 then toPositive g.step else g
termination_by pending g.state
decreasing_by exact pending_advance ‹_›

/-- Two normal samples from two uniform ones, the first of which is positive; the second is kept. -/
def pair (g : Generator) : Float × Generator :=
  let radius := (-2.0 * g.unit.log).sqrt
  let (u, g) := g.uniform
  let angle := 2.0 * 3.141592653589793 * u
  (radius * angle.cos, { g with spare := some (radius * angle.sin) })

/-- A standard normal sample. Its logarithm needs a positive uniform sample. -/
def normal (g : Generator) : Float × Generator :=
  match g.spare with
  | some x => (x, { g with spare := none })
  | none => g.step.toPositive.pair

def draw (sample : Generator → Float × Generator) : Nat → Generator → List Float × Generator
  | 0, g => ([], g)
  | n + 1, g =>
    let (x, g) := sample g
    let (xs, g) := draw sample n g
    (x :: xs, g)

end Generator

/-- Drawing samples. What was drawn before a failure stays drawn. -/
abbrev Sampling := ExceptT Fault (StateM Generator)

/-- A matrix of samples, drawn row by row. -/
def Sampling.matrix (sample : Generator → Float × Generator) (rows cols : Int64) :
    Sampling (Matrix Float) := do
  let rows ← Matrix.dimension rows
  let cols ← Matrix.dimension cols
  let xs := (← modifyGet (Generator.draw sample (rows * cols))).toArray
  return Matrix.build rows cols fun i j => xs.getD (i * cols + j) 0.0

def Generator.matrix (sample : Generator → Float × Generator) (rows cols : Int64) (g : Generator) :
    Except Fault (Matrix Float × Generator) :=
  completed (Sampling.matrix sample rows cols) g

end MatrixCode
