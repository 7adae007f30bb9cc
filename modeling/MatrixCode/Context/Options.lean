import MatrixCode.Error
import MatrixCode.Number.Reader
import MatrixCode.Optimizer.Policy
import MatrixCode.Text.Json
import MatrixCode.Writer.Operand

/-!
Options for written programs, and their text: an object with named fields, or an
array with the fields in order. Fields may be missing. Unknown fields are passed
over; a field that is given twice, or has the wrong type, is an error.
-/

namespace MatrixCode

structure Options where
  /-- Optimize before writing. -/
  optimize : Bool
  policy : Policy
  indent : String
  kernels : String
  deriving DecidableEq, Repr

namespace Options

def standard : Options := ⟨true, .standard, Writer.defaultIndent, Writer.defaultKernels⟩

def bool? : JsonValue → Option Bool
  | .bool value => some value
  | _ => none

/-- A policy is a whole number that fits into eight bits. -/
def policy? : JsonValue → Option Policy
  | .number text => (Reader.natural? text).bind fun n => if n < 256 then some ⟨UInt8.ofNat n⟩ else none
  | _ => none

def string? : JsonValue → Option String
  | .string text => text.map String.ofList
  | _ => none

/-- The field of a name: its default when it is missing, nothing when it is given
twice or cannot be read. -/
def field? {α : Type} (members : List (String × JsonValue)) (name : String)
    (read : JsonValue → Option α) (default : α) : Option α :=
  match members.filter fun (key, _) => key = name with
  | [] => some default
  | [(_, value)] => read value
  | _ => none

def item? {α : Type} (items : List JsonValue) (position : Nat) (read : JsonValue → Option α)
    (default : α) : Option α :=
  match items[position]? with
  | none => some default
  | some value => read value

def ofJson? : JsonValue → Option Options
  | .object members => do
    let members ← members.mapM fun (key, value) => key.map fun key => (String.ofList key, value)
    return {
      optimize := ← field? members "optimize" bool? standard.optimize
      policy := ← field? members "reduce_policy" policy? standard.policy
      indent := ← field? members "indent" string? standard.indent
      kernels := ← field? members "kernels_path" string? standard.kernels }
  | .array items =>
    if 4 < items.length then none
    else do
      return {
        optimize := ← item? items 0 bool? standard.optimize
        policy := ← item? items 1 policy? standard.policy
        indent := ← item? items 2 string? standard.indent
        kernels := ← item? items 3 string? standard.kernels }
  | _ => none

def read (text : String) : Outcome Options :=
  match (JsonValue.read? text).bind ofJson? with
  | some options => return options
  | none => report (.failed "options" .unreadableOptions)

def write (o : Options) : String :=
  "\x7b\"optimize\":" ++ (if o.optimize then "true" else "false") ++
    ",\"reduce_policy\":" ++ toString o.policy.bits.toNat ++
    ",\"indent\":" ++ JsonValue.quoted o.indent ++
    ",\"kernels_path\":" ++ JsonValue.quoted o.kernels ++ "\x7d"

end Options
end MatrixCode
