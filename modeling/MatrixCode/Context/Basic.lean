import MatrixCode.Context.Options
import MatrixCode.Machine.Fold
import MatrixCode.Optimizer.Basic
import MatrixCode.Writer.Statement

/-!
A context holds what a family of equations shares: the variables, the values of
those that are bound, and the names that the user gave. An equation is a program
in a context; it can be run on the values, or written out as a function.
-/

namespace MatrixCode

structure Context where
  workspace : Workspace
  machine : Machine
  /-- The names of the user's variables, in the order of declaration. -/
  aliases : List (String × Handle)
  deriving Repr

namespace Context

def initial : Context := ⟨.initial, .initial, []⟩

def table (c : Context) : Table := c.workspace.table

def store (c : Context) : Store := c.machine.store

def lookup? (c : Context) (name : String) : Option Handle := c.aliases.lookup name

def value? (c : Context) (name : String) : Option Value := (c.lookup? name).bind c.store.get?

def matrix? (c : Context) (name : String) : Option (Matrix Float) := (c.value? name).bind Value.matrix?

/-- The content of a variable of the user; a range cannot be one. -/
def contentOf : Kind → Outcome Content
  | .integer => return .integer
  | .double => return .double
  | .matrix => return .matrix
  | .sequence => report (.mismatch "alias" [.sequence])

/-- Declares a variable. Declaring it again with the same kind changes nothing. -/
def declare (c : Context) (name : String) (kind : Kind) : Outcome (Handle × Context) := do
  let content ← contentOf kind
  match c.lookup? name with
  | some h =>
    let existing ← c.table.fetchKind h
    if existing = kind then return (h, c) else report (.aliasConflict name existing)
  | none =>
    let (h, table) := c.table.add (.named name content)
    return (h, { c with
      workspace := { c.workspace with table := table }
      aliases := c.aliases ++ [(name, h)] })

/-- Declares a variable of the kind of a value, and binds it. -/
def bind (c : Context) (name : String) (value : Value) : Outcome (Handle × Context) := do
  let (h, c) ← c.declare name value.kind
  return (h, { c with machine := { c.machine with store := c.store.set h value } })

def reseed (c : Context) (seed : UInt64) : Context :=
  { c with machine := { c.machine with generator := .ofSeed seed } }

/-- Takes the temporaries of a finished program off the books. -/
def releaseTemporaries (c : Context) (p : Program) : Outcome Context := do
  let temporaries ← p.temporaries c.table
  return { c with workspace := temporaries.foldl Workspace.release c.workspace }

end Context

structure Equation where
  context : Context
  program : Program
  deriving Repr

/-- The text of a program. -/
structure Generated where
  /-- The declarations of the temporaries. -/
  header : String
  body : String
  report : Option Report
  deriving Repr

/-- A computation on an equation. What it did before a failure is kept. -/
abbrev Compilation := ExceptT Failure (StateM Equation)

namespace Compilation

/-- Works on the program and the variables only. -/
def drafting {α : Type} (d : Drafting α) : Compilation α :=
  ExceptT.mk fun e =>
    let (result, draft) := d.run.run ⟨e.context.workspace, e.program⟩
    (result, ⟨{ e.context with workspace := draft.workspace }, draft.program⟩)

/-- Works on the values only. -/
def executing {α : Type} (x : Execution α) : Compilation α :=
  ExceptT.mk fun e =>
    let (result, machine) := x.run.run e.context.machine
    (result, { e with context := { e.context with machine := machine } })

def optimizeWhen (enabled : Bool) (policy : Policy) (folder : Folder) :
    Compilation (Option Report) := do
  if enabled then return some (← drafting (.optimize policy folder)) else return none

def forget (temporaries : List Handle) : Compilation Unit :=
  modify fun e =>
    let store := temporaries.foldl Store.erase e.context.store
    { e with context := { e.context with machine := { e.context.machine with store := store } } }

/-- Runs the program on the bound values. The values of temporaries are forgotten
afterwards, also when the run fails. -/
def execute (optimize : Bool) : Compilation (Option Report) := do
  let report ← optimizeWhen optimize .standard Machine.fold
  let e ← get
  let table := e.context.table
  let temporaries ← e.program.temporaries table
  executing (temporaries.forM (Machine.declare table))
  try
    executing (Machine.run table e.program)
  catch failure =>
    forget temporaries
    throw failure
  forget temporaries
  return report

def generate (options : Options) : Compilation Generated := do
  let writer : Writer := ⟨options.kernels, options.indent, (← get).program.output⟩
  let report ← optimizeWhen options.optimize options.policy writer.fold
  let e ← get
  let table := e.context.table
  let temporaries ← e.program.temporaries table
  let header ← Writer.textOf (temporaries.forM (writer.declaration table options.indent))
  let body ← writer.body table e.program
  return ⟨header, body, report⟩

/-- The type of a parameter; a range is none. -/
def parameterType? (kernels : String) (isOutput : Bool) : Kind → Option String
  | .matrix => some ((if isOutput then "&mut " else "&") ++ kernels ++ "::Matrix")
  | .double => some (if isOutput then "&mut f64" else "f64")
  | .integer => some (if isOutput then "&mut i64" else "i64")
  | .sequence => none

def parameter? (e : Equation) (kernels : String) (entry : String × Handle) :
    Outcome (Option String) := do
  let kind ← e.context.table.fetchKind entry.2
  return (parameterType? kernels (e.program.output = some entry.2) kind).map fun type =>
    entry.1 ++ ": " ++ type

/-- Writes the program as a function. Its parameters are the variables of the user
in the order of declaration, and a generator when random numbers are drawn. -/
def generateFunction (name : String) (options : Options) : Compilation String := do
  let code ← generate options
  let e ← get
  let parameters ← e.context.aliases.mapM fun entry =>
    (parameter? e options.kernels entry : Compilation (Option String))
  let generator :=
    if e.program.instructions.any (·.primitive.isRandom) then
      ["rng: &mut " ++ options.kernels ++ "::MatrixRng"]
    else []
  return "pub fn " ++ name ++ "(" ++ ", ".intercalate (parameters.filterMap id ++ generator) ++
    ") -> Result<(), " ++ options.kernels ++ "::KernelError> \x7b\n" ++
    code.header ++ code.body ++ options.indent ++ "Ok(())\n\x7d\n"

end Compilation
end MatrixCode
