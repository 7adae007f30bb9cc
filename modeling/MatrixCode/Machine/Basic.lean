import MatrixCode.Extent.Selection
import MatrixCode.Instruction.Basic
import MatrixCode.Machine.Scalar
import MatrixCode.Machine.Value
import MatrixCode.Matrix.Selection
import MatrixCode.Program
import MatrixCode.Random

/-!
The machine runs instructions on a store of values and a random number generator.
A matrix that is written in place or in a part is out of the store while it is
written. When the writing fails, the old matrix comes back in the first case, and
in the second what the writing left of it.
-/

namespace MatrixCode

structure Machine where
  store : Store
  generator : Generator
  deriving Repr

/-- Writing a matrix that is out of the store. What was written before a failure is kept. -/
abbrev Rewriting := ExceptT Failure (StateM (Matrix Float))

/-- Making a value with random numbers. What was drawn before a failure stays drawn. -/
abbrev Drawing := ExceptT Failure (StateM Generator)

/-- What an instruction does to a machine. -/
structure Effect where
  target : Handle
  value : Value
  generator : Generator
  deriving Repr

namespace Instruction

variable (i : Instruction) (t : Table) (s : Store)

def matrixInput (position : Nat) : Outcome (Matrix Float) := do s.matrix t (← i.input position)

def doubleInput (position : Nat) : Outcome Float := do s.double t (← i.input position)

def integerInput (position : Nat) : Outcome Int64 := do s.integer t (← i.input position)

/-- Results of kind integer. A new seed is an effect on the generator. -/
def integerResult (g : Generator) : Outcome (Int64 × Generator) := do
  match i.primitive, i.signature with
  | .add, .ii | .subtract, .ii | .multiply, .ii | .divide, .ii | .negate, .i | .maximum, .i
  | .minimum, .i | .abs, .i | .copy, .ii =>
    let arguments ← i.inputs.mapM (s.integer t)
    match i.primitive.onWords arguments with
    | some x => return (x, g)
    | none => report (.failed i.opName .noInteger)
  | .reseed, .i =>
    let seed ← i.integerInput t s 0
    return (seed, .ofSeed seed.toUInt64)
  | _, _ => throw i.unimplemented

def doubleResult : Outcome Float := do
  let a := i.matrixInput t s 0
  match i.primitive, i.signature with
  | .determinant, .m => i.kernel (← a).det
  | .trace, .m => return (← a).trace
  | .normF, .m => return (← a).normF
  | .maximum, .m => i.kernel (← a).maxElement
  | .minimum, .m => i.kernel (← a).minElement
  | .sum, .m => return (← a).sum
  | .normP, .ms => i.kernel ((← a).normP (← i.doubleInput t s 1))
  | .dot, .bare => i.kernel ((← a).dot (← i.matrixInput t s 1))
  | .element, .bare =>
    let a ← a
    match i.inputs.length with
    | 2 => i.kernel (a.element (← i.integerInput t s 1))
    | 3 => i.kernel (a.element₂ (← i.integerInput t s 1) (← i.integerInput t s 2))
    | _ => throw i.unimplemented
  | .copy, .sm1 => i.kernel (← a).scalarOf
  | p, .ss | p, .s | p, .i =>
    let arguments ← i.inputs.mapM (s.double t)
    match p.onDoubles i.signature arguments with
    | some x => return x
    | none => throw i.unimplemented
  | _, _ => throw i.unimplemented

/-- The shape that the dimensions of the operands give to the target. -/
def targetShape : Outcome (Nat × Nat) := do
  let dimension : Dimension → Outcome Nat
    | .leftRows => return (← i.matrixInput t s 0).rows
    | .leftCols => return (← i.matrixInput t s 0).cols
    | .rightRows => return (← i.matrixInput t s 1).rows
    | .rightCols => return (← i.matrixInput t s 1).cols
  match i.dimensions with
  | [rows, cols] => return (← dimension rows, ← dimension cols)
  | _ => throw i.unimplemented

def writeInto (target : Matrix Float) : Outcome (Matrix Float) := do
  let a ← i.matrixInput t s 0
  let b := i.matrixInput t s 1
  match i.primitive with
  | .add => i.kernel (a.addInto (← b) target)
  | .subtract => i.kernel (a.subtractInto (← b) target)
  | .multiply => i.kernel (a.multiplyInto (← b) target)
  | .elementMultiply => i.kernel (a.elementMultiplyInto (← b) target)
  | .elementDivide => i.kernel (a.elementDivideInto (← b) target)
  | .transpose => i.kernel (a.transposeInto target)
  | .copy => i.kernel (a.copyInto target)
  | _ => throw i.unimplemented

/-- Shapes a target, then writes into it. -/
def inPlaceResult : Outcome (Matrix Float) := do
  let (rows, cols) ← i.targetShape t s
  i.writeInto t s (.fill rows cols 0.0)

def extractResult : Outcome (Matrix Float) := do
  let some range := i.range | throw i.unimplemented
  let addressing ← Addressing.classify t range
  let a ← i.matrixInput t s 0
  match ← addressing.resolve a.rows a.cols (s.index t) with
  | .flat elements => i.kernel (a.extractFlat elements.indices)
  | .grid (.block r₀ r₁) (.block c₀ c₁) => i.kernel (a.extractBlock r₀ r₁ c₀ c₁)
  | .grid rows cols => i.kernel (a.extractIndices rows.indices cols.indices)

/-- Results that are made anew. -/
def freshResult : Drawing (Matrix Float) := do
  let m := i.matrixInput t s
  let d := i.doubleInput t s
  let n := i.integerInput t s
  let kept (value : Outcome (Matrix Float)) : Drawing (Matrix Float) := value
  match i.primitive, i.signature with
  | .add, .mm => kept do i.kernel ((← m 0).add (← m 1))
  | .subtract, .mm => kept do i.kernel ((← m 0).subtract (← m 1))
  | .multiply, .mm => kept do i.kernel ((← m 0).multiply (← m 1))
  | .elementMultiply, .mm => kept do i.kernel ((← m 0).elementMultiply (← m 1))
  | .elementDivide, .mm => kept do i.kernel ((← m 0).elementDivide (← m 1))
  | .transpose, .m => kept do return (← m 0).transpose
  | .copy, .mm => kept (m 0)
  | .add, .ms => kept do return (← m 0).addScalar (← d 1)
  | .add, .sm => kept do return (← m 1).addScalar (← d 0)
  | .subtract, .ms => kept do return (← m 0).subtractScalar (← d 1)
  | .subtract, .sm => kept do return Matrix.scalarMinus (← d 0) (← m 1)
  | .multiply, .ms => kept do return (← m 0).scale (← d 1)
  | .multiply, .sm => kept do return (← m 1).scale (← d 0)
  | .divide, .ms => kept do return (← m 0).divideScalar (← d 1)
  | .negate, .m => kept do return (← m 0).negate
  | .elementDivide, .sm => kept do return Matrix.scalarOverElements (← d 0) (← m 1)
  | .elementPower, .mm => kept do i.kernel ((← m 0).elementPower (← m 1))
  | .elementPower, .ms => kept do return (← m 0).elementPowerScalar (← d 1)
  | .elementPower, .sm => kept do return Matrix.scalarPowerElements (← d 0) (← m 1)
  | .inverse, .m => kept do i.kernel (← m 0).invert
  | .pseudoInverse, .m => kept do i.kernel (← m 0).pinv
  | .echelon, .m => kept do return (← m 0).rref
  | .kronecker, .bare => kept do return (← m 0).kron (← m 1)
  | .solve, .bare => kept do i.kernel ((← m 0).solve (← m 1))
  | .maximumOfRows, .bare => kept do return (← m 0).maxRows
  | .maximumOfColumns, .bare => kept do return (← m 0).maxColumns
  | .minimumOfRows, .bare => kept do return (← m 0).minRows
  | .minimumOfColumns, .bare => kept do return (← m 0).minColumns
  | .sumOfRows, .bare => kept do return (← m 0).sumRows
  | .sumOfColumns, .bare => kept do return (← m 0).sumColumns
  | .abs, .m => kept do return (← m 0).map Float.abs
  | .sqrt, .m => kept do return (← m 0).map Float.sqrt
  | .sin, .m => kept do return (← m 0).map Float.sin
  | .cos, .m => kept do return (← m 0).map Float.cos
  | .atan, .m => kept do return (← m 0).map Float.atan
  | .exp, .m => kept do return (← m 0).map Float.exp
  | .log, .m => kept do return (← m 0).map Float.log
  | .eye, .i => kept do i.kernel (Matrix.eye (← n 0))
  | .eye, .m => kept do return (← m 0).eyeLike
  | .diagonal, .m => kept do return (← m 0).diag
  | .zeros, .ii => kept do i.kernel (Matrix.zeros (← n 0) (← n 1))
  | .ones, .ii => kept do i.kernel (Matrix.ones (← n 0) (← n 1))
  | .uniform, .ii => do i.stateful (Sampling.matrix Generator.uniform (← n 0) (← n 1))
  | .normal, .ii => do i.stateful (Sampling.matrix Generator.normal (← n 0) (← n 1))
  | .extract, .bare => kept (i.extractResult t s)
  | _, _ => throw i.unimplemented

/-- Results of kind matrix, in place when the target is none of the operands. -/
def matrixResult (g : Generator) (target : Handle) : Outcome (Matrix Float × Generator) := do
  if i.writesInPlace && !i.inputs.contains target then return (← i.inPlaceResult t s, g)
  else completed (i.freshResult t s) g

def itemValue (h : Handle) : Outcome (Matrix Float) := do
  match ← t.fetchKind h with
  | .matrix => s.matrix t h
  | .integer | .double => return Matrix.ofScalar (← s.double t h)
  | .sequence => report (.unsupported Primitive.assemble.name [.sequence])

def assembleResult : Outcome (Matrix Float) := do
  let some blocks := i.blocks | throw i.unimplemented
  let rows ← blocks.mapM fun row => row.mapM (itemValue t s)
  i.kernel (Matrix.concat 0.0 rows)

def insertPart (part : Matrix Float) : Region → Rewriting Unit
  | .flat elements => i.stateful (Overwriting.insertFlat part elements.indices)
  | .grid (.block r₀ r₁) (.block c₀ c₁) => i.stateful (Overwriting.insertBlock part r₀ r₁ c₀ c₁)
  | .grid rows cols => i.stateful (Overwriting.insertIndices part rows.indices cols.indices)

def fillPart (x : Float) : Region → Rewriting Unit
  | .flat elements => i.stateful (Overwriting.fillFlat x elements.indices)
  | .grid (.block r₀ r₁) (.block c₀ c₁) => i.stateful (Overwriting.fillBlock x r₀ r₁ c₀ c₁)
  | .grid rows cols => i.stateful (Overwriting.fillIndices x rows.indices cols.indices)

/-- Writes a part of a matrix that has been taken out of the store. It can be read only where it
is the source itself. -/
def writePart (source target : Handle) (addressing : Addressing) : Rewriting Unit := do
  let whole ← get
  let region ← addressing.resolve whole.rows whole.cols (s.index t)
  let part : Outcome (Matrix Float) := if source = target then pure whole else s.matrix t source
  match i.signature with
  | .mm => i.insertPart (← part) region
  | .sm => i.fillPart (← s.double t source) region
  | _ => throw i.unimplemented

def copyRangeResult (target : Handle) : Outcome (Matrix Float) := do
  let source ← i.input 0
  let some range := i.range | throw i.unimplemented
  let addressing ← Addressing.classify t range
  let some whole := s.matrix? target | do report (.unbound (← t.fetch target).name)
  return (← completed (i.writePart t (s.erase target) source target addressing) whole).2

/-- What the instruction would write. -/
def evaluate (m : Machine) : Outcome Effect := do
  let target ← i.target
  if i.primitive = .copy && i.range.isSome then
    return ⟨target, .matrix (← i.copyRangeResult t m.store target), m.generator⟩
  else if i.primitive = .assemble then
    return ⟨target, .matrix (← i.assembleResult t m.store), m.generator⟩
  else
    match ← t.fetchKind target with
    | .integer =>
      let (x, g) ← i.integerResult t m.store m.generator
      return ⟨target, .integer x, g⟩
    | .double => return ⟨target, .double (← i.doubleResult t m.store), m.generator⟩
    | .matrix =>
      let (x, g) ← i.matrixResult t m.store m.generator target
      return ⟨target, .matrix x, g⟩
    | .sequence => throw i.unimplemented

end Instruction

/-- A computation on a machine. What it did before a failure is kept. -/
abbrev Execution := ExceptT Failure (StateM Machine)

namespace Machine

def initial : Machine := ⟨.empty, .initial⟩

def apply (m : Machine) (e : Effect) : Machine := ⟨m.store.set e.target e.value, e.generator⟩

def assign (h : Handle) (value : Value) : Execution Unit :=
  modify fun m => { m with store := m.store.set h value }

def takeMatrix (h : Handle) : Execution (Option (Matrix Float)) :=
  modifyGet fun m =>
    let (held, rest) := m.store.takeMatrix h
    (held, { m with store := rest })

/-- Draws from the generator of the machine. -/
def drawing {α : Type} (x : Drawing α) : Execution α :=
  ExceptT.mk fun m =>
    let (result, g) := x.run.run m.generator
    (result, { m with generator := g })

/-- Writes into new storage that the operands shape. -/
def executeInPlace (t : Table) (i : Instruction) (target : Handle) : Execution Unit := do
  let (rows, cols) ← i.targetShape t (← get).store
  let old ← takeMatrix target
  match i.writeInto t (← get).store (.fill rows cols 0.0) with
  | .ok new => assign target (.matrix new)
  | .error e =>
    if let some x := old then assign target (.matrix x)
    throw e

def executeAnew (t : Table) (i : Instruction) (target : Handle) : Execution Unit := do
  let x ← drawing (i.freshResult t (← get).store)
  assign target (.matrix x)

/-- Writes a part of the target, which comes back as the writing left it. -/
def executePart (t : Table) (i : Instruction) (target : Handle) : Execution Unit := do
  let source ← i.input 0
  let some range := i.range | throw i.unimplemented
  let addressing ← Addressing.classify t range
  let some whole ← takeMatrix target | do report (.unbound (← t.fetch target).name)
  let (result, after) := (i.writePart t (← get).store source target addressing).run.run whole
  assign target (.matrix after)
  result

def execute (t : Table) (i : Instruction) : Execution Unit := do
  let target ← i.target
  if i.primitive = .copy && i.range.isSome then executePart t i target
  else if i.primitive = .assemble then
    assign target (.matrix (← i.assembleResult t (← get).store))
  else
    match ← t.fetchKind target with
    | .integer =>
      let m ← get
      let (x, g) ← i.integerResult t m.store m.generator
      modify ({ · with generator := g })
      assign target (.integer x)
    | .double => assign target (.double (← i.doubleResult t (← get).store))
    | .matrix =>
      if i.writesInPlace && !i.inputs.contains target then executeInPlace t i target
      else executeAnew t i target
    | .sequence => throw i.unimplemented

/-- Gives a variable that has no value the first value of its kind. -/
def declare (t : Table) (h : Handle) : Execution Unit := do
  let m ← get
  if !m.store.contains h then
    match t.fetchKind h with
    | .ok kind =>
      match Value.initial? kind with
      | some value => set { m with store := m.store.set h value }
      | none => return ()
    | .error e => throw e

/-- Runs all instructions of a program, up to the first that fails. -/
def run (t : Table) (p : Program) : Execution Unit := p.instructions.forM (execute t)

end Machine
end MatrixCode
