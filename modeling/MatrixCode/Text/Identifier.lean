import MatrixCode.Text.Blank

/-!
Identifiers in the text of a scalar expression. `hasFree` decides whether the
text names a variable: an identifier is free unless it belongs to a number, a
method, a path or a call, or is one of the words of a cast.
-/

namespace MatrixCode
namespace Identifier

def isStart (c : Char) : Bool := c.isAlpha || c == '_'

def isPart (c : Char) : Bool := c.isAlphanum || c == '_'

/-- Words that a cast is made of. -/
def castWords : List String := ["as", "f64", "i64", "usize"]

/-- A character that ties the identifier after it to what stands before. -/
def glues (c : Char) : Bool := isPart c || c == '.' || c == ':'

/-- True if the text continues as the arguments of a call or the rest of a path. -/
def continues (rest : List Char) : Bool :=
  match Blank.trimLeft rest with
  | '(' :: _ => true
  | ':' :: ':' :: _ => true
  | _ => false

/-- The maximal identifiers of a text, each with the character before it and the
text after it. -/
def occurrences (before : Option Char) : List Char → List (Option Char × List Char × List Char)
  | [] => []
  | c :: cs =>
    if isStart c then
      let tail := cs.takeWhile isPart
      let rest := cs.dropWhile isPart
      (before, c :: tail, rest) :: occurrences (some ((c :: tail).getLastD c)) rest
    else occurrences (some c) cs
  termination_by cs => cs.length
  decreasing_by
    · have := (List.dropWhile_sublist isPart (l := cs)).length_le
      simp only [List.length_cons]
      omega
    · simp

def isFree (before : Option Char) (word rest : List Char) : Bool :=
  !(before.any glues) && !continues rest && !castWords.contains (String.ofList word)

def hasFree (text : String) : Bool :=
  (occurrences none text.toList).any fun (before, word, rest) => isFree before word rest

end Identifier
end MatrixCode
