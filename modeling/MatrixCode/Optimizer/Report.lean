import MatrixCode.Temporaries

/-!
Reports on what an optimization changed, with two written forms: a structured
text of fields, and one line for a reader.
-/

namespace MatrixCode

structure Report where
  instructionsBefore : Nat
  instructionsAfter : Nat
  /-- The temporaries that the program touched before. -/
  temporariesBefore : Counts
  temporariesAfter : Counts
  /-- Instructions that became expressions. -/
  removedConstants : Nat
  /-- Temporaries that share the storage of an earlier one. -/
  removedTemporaries : Counts
  trailingCopyRemoved : Bool
  deriving DecidableEq, Repr

namespace Report

def fieldLine (depth : Nat) (key value : String) : String :=
  String.ofList (List.replicate (2 * depth) ' ') ++ "\"" ++ key ++ "\": " ++ value

/-- Fields between braces, one a line; `depth` is that of the closing brace. -/
def block (depth : Nat) (fields : List (String × String)) : String :=
  let lines := fields.map fun (key, value) => fieldLine (depth + 1) key value
  "\x7b\n" ++ ",\n".intercalate lines ++ "\n" ++ String.ofList (List.replicate (2 * depth) ' ') ++ "\x7d"

def counts (c : Counts) : String :=
  block 1 [("integer", toString c.integer), ("double", toString c.double), ("matrix", toString c.matrix)]

/-- All fields, nested by two blanks a level. -/
def structured (r : Report) : String :=
  block 0 [
    ("instructions_before", toString r.instructionsBefore),
    ("instructions_after", toString r.instructionsAfter),
    ("temporaries_before", counts r.temporariesBefore),
    ("temporaries_after", counts r.temporariesAfter),
    ("removed_constants", toString r.removedConstants),
    ("removed_temporaries", counts r.removedTemporaries),
    ("trailing_copy_removed", if r.trailingCopyRemoved then "true" else "false")]

def summary (r : Report) : String :=
  "instructions " ++ toString r.instructionsBefore ++ " -> " ++ toString r.instructionsAfter ++
    ", temporaries " ++ toString r.temporariesBefore.total ++ " -> " ++
    toString r.temporariesAfter.total ++ ", constants folded " ++ toString r.removedConstants ++
    ", trailing copy " ++ (if r.trailingCopyRemoved then "removed" else "kept") ++ "\n"

end Report
end MatrixCode
