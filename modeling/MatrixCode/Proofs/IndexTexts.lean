import MatrixCode.Extent.Expression
import MatrixCode.Extent.Selection
import MatrixCode.Proofs.Lexing

/-!
The meaning of index expressions as texts. A text is taken apart at its brackets, commas and dots, down
to calls of kernels, numerals and the texts of operands, whose values are given. The kernels that it
calls either succeed or report a fault.
-/

namespace MatrixCode

namespace Bracketed

def shift? (depth : Nat) (c : Char) : Option Nat :=
  if c = '(' ∨ c = '[' then some (depth + 1)
  else if c = ')' ∨ c = ']' then if depth = 0 then none else some (depth - 1)
  else some depth

/-- The depth of brackets behind a text in which `stop` stands in brackets only. -/
def scan? (stop : Char) : Nat → List Char → Option Nat
  | depth, [] => some depth
  | depth, c :: cs => if depth = 0 ∧ c = stop then none else (shift? depth c).bind (scan? stop · cs)

/-- The parts between the commas that do not stand in brackets. -/
def fields? : Nat → List Char → Option (List (List Char))
  | depth, [] => if depth = 0 then some [[]] else none
  | depth, c :: cs =>
    if depth = 0 ∧ c = ',' then (fields? 0 cs).map ([] :: ·)
    else (shift? depth c).bind fun depth => (fields? depth cs).map (List.modifyHead (c :: ·))

/-- What stands before and behind the first two dots that do not stand in brackets. -/
def interval? : Nat → List Char → Option (List Char × List Char)
  | _, [] => none
  | depth, c :: cs =>
    if depth = 0 ∧ c = '.' then (cs.dropPrefix? ['.']).map fun rest => ([], rest)
    else (shift? depth c).bind fun depth => (interval? depth cs).map fun (first, rest) => (c :: first, rest)

variable {stop : Char} {cs : List Char} {depth depth' : Nat}

theorem scan?_cons {c : Char} (h : scan? stop depth (c :: cs) = some depth') :
    ¬(depth = 0 ∧ c = stop) ∧ ∃ next, shift? depth c = some next ∧ scan? stop next cs = some depth' := by
  rw [scan?] at h
  split at h
  · cases h
  · next other => exact ⟨other, Option.bind_eq_some_iff.mp h⟩

theorem scan?_append (ds : List Char) (h : scan? stop depth cs = some depth') :
    scan? stop depth (cs ++ ds) = scan? stop depth' ds := by
  induction cs generalizing depth with
  | nil =>
      obtain rfl := Option.some.inj h
      rfl
  | cons c cs ih =>
      obtain ⟨other, next, shifted, h⟩ := scan?_cons h
      rw [List.cons_append, scan?, if_neg other, shifted, Option.bind_some, ih h]

theorem scan?_succ (stop' : Char) (h : scan? stop depth cs = some depth') :
    scan? stop' (depth + 1) cs = some (depth' + 1) := by
  induction cs generalizing depth with
  | nil =>
      obtain rfl := Option.some.inj h
      rfl
  | cons c cs ih =>
      obtain ⟨-, next, shifted, h⟩ := scan?_cons h
      have deeper : shift? (depth + 1) c = some (next + 1) := by
        unfold shift? at shifted ⊢
        grind
      rw [scan?, if_neg (by simp), deeper, Option.bind_some, ih h]

theorem scan?_of_plain (plain : ∀ c ∈ cs, c ≠ stop ∧ c ∉ ['(', ')', '[', ']']) :
    scan? stop depth cs = some depth := by
  induction cs with
  | nil => rfl
  | cons c cs ih =>
      obtain ⟨⟨other, bracket⟩, rest⟩ := List.forall_mem_cons.mp plain
      have same : shift? depth c = some depth := by
        unfold shift?
        grind
      rw [scan?, if_neg (by simp [other]), same, Option.bind_some, ih rest]

theorem fields?_append (ds : List Char) (h : scan? ',' depth cs = some depth') :
    fields? depth (cs ++ ds) = (fields? depth' ds).map (List.modifyHead (cs ++ ·)) := by
  induction cs generalizing depth with
  | nil =>
      obtain rfl := Option.some.inj h
      rw [List.nil_append]
      cases fields? depth ds with
      | none => rfl
      | some fs => cases fs <;> rfl
  | cons c cs ih =>
      obtain ⟨other, next, shifted, h⟩ := scan?_cons h
      rw [List.cons_append, fields?, if_neg other, shifted, Option.bind_some, ih h, Option.map_map]
      congr 1
      funext fs
      cases fs <;> rfl

theorem interval?_append (ds : List Char) (h : scan? '.' depth cs = some depth') :
    interval? depth (cs ++ ds) =
      (interval? depth' ds).map fun (first, rest) => (cs ++ first, rest) := by
  induction cs generalizing depth with
  | nil =>
      obtain rfl := Option.some.inj h
      rw [List.nil_append]
      cases interval? depth ds <;> rfl
  | cons c cs ih =>
      obtain ⟨other, next, shifted, h⟩ := scan?_cons h
      rw [List.cons_append, interval?, if_neg other, shifted, Option.bind_some, ih h, Option.map_map]
      rfl

/-- The brackets are balanced, and commas stand in brackets only. -/
def Enclosed (text : String) : Prop := scan? ',' 0 text.toList = some 0

instance (text : String) : Decidable (Enclosed text) :=
  inferInstanceAs (Decidable (scan? ',' 0 text.toList = some 0))

theorem fields?_enclosed {text : String} (h : Enclosed text) : fields? 0 text.toList = some [text.toList] := by
  have whole := fields?_append [] h
  rwa [List.append_nil, fields?, if_pos rfl, Option.map_some, List.modifyHead_cons,
    List.append_nil] at whole

theorem interval?_dots (rest : List Char) (h : scan? '.' 0 cs = some 0) :
    interval? 0 (cs ++ '.' :: '.' :: rest) = some (cs, rest) := by
  rw [interval?_append _ h, interval?, if_pos ⟨rfl, rfl⟩]
  simp [List.dropPrefix?]

theorem exists_intercalate (separator : String) {text : String} (texts : List String) {c : Char}
    (h : text.toList = c :: cs) :
    ∃ rest, (separator.intercalate (text :: texts)).toList = c :: rest := by
  cases texts with
  | nil => exact ⟨cs, by rw [String.intercalate_singleton, h]⟩
  | cons next texts =>
      rw [String.intercalate_cons_cons, String.toList_append, String.toList_append, h]
      exact ⟨_, rfl⟩

theorem fields?_append_intercalate {lead : List Char} (plain : scan? ',' 0 lead = some 0) {text : String}
    {texts : List String} (each : ∀ b ∈ text :: texts, Enclosed b) :
    fields? 0 (lead ++ (", ".intercalate (text :: texts)).toList) =
      some ((lead ++ text.toList) :: texts.map (' ' :: ·.toList)) := by
  induction texts generalizing lead text with
  | nil =>
      rw [String.intercalate_singleton, fields?_append _ plain, fields?_enclosed (each text (by simp))]
      rfl
  | cons next texts ih =>
      obtain ⟨first, others⟩ := List.forall_mem_cons.mp each
      have head : scan? ',' 0 (lead ++ text.toList) = some 0 := (scan?_append _ plain).trans first
      have parted : lead ++ (", ".intercalate (text :: next :: texts)).toList =
          (lead ++ text.toList) ++ ',' :: ([' '] ++ (", ".intercalate (next :: texts)).toList) := by
        rw [String.intercalate_cons_cons, String.toList_append, String.toList_append]
        simp
      rw [parted, fields?_append _ head, fields?, if_pos ⟨rfl, rfl⟩, ih (by decide) others]
      simp

/-- Texts that are joined by commas are the fields, with a blank before each but the first. -/
theorem fields?_intercalate {text : String} {texts : List String} (each : ∀ b ∈ text :: texts, Enclosed b) :
    fields? 0 (", ".intercalate (text :: texts)).toList =
      some (text.toList :: texts.map (' ' :: ·.toList)) := by
  have plain : scan? ',' 0 [] = some 0 := rfl
  exact fields?_append_intercalate plain each

theorem scan?_intercalate (stop : Char) {texts : List String} (each : ∀ b ∈ texts, Enclosed b) :
    scan? stop 1 (", ".intercalate texts).toList = some 1 := by
  induction texts with
  | nil => rfl
  | cons text texts ih =>
      obtain ⟨first, others⟩ := List.forall_mem_cons.mp each
      cases texts with
      | nil =>
          rw [String.intercalate_singleton]
          exact scan?_succ stop first
      | cons next texts =>
          rw [String.intercalate_cons_cons, String.toList_append, String.toList_append,
            List.append_assoc, scan?_append _ (scan?_succ stop first)]
          exact ih others

theorem enclosed_of_plain {text : String} (plain : ∀ c ∈ text.toList, c ∉ [',', '(', ')', '[', ']']) :
    Enclosed text :=
  scan?_of_plain fun c hc => by
    have := plain c hc
    grind

/-- The brackets of a call enclose its arguments, dots and all. -/
theorem scan?_call (hs : stop ∈ [',', '.']) {callee : List Char}
    (plain : ∀ c ∈ callee, c ≠ stop ∧ c ∉ ['(', ')', '[', ']']) {arguments : List String}
    (each : ∀ b ∈ arguments, Enclosed b) :
    scan? stop 0 (callee ++ '(' :: ((", ".intercalate arguments).toList ++ [')', '?'])) = some 0 := by
  have opening : scan? stop 0 ['('] = some 1 := by
    fin_cases hs <;> rfl
  have closing : scan? stop 1 [')', '?'] = some 0 := by
    fin_cases hs <;> rfl
  rw [scan?_append _ (scan?_of_plain plain), ← List.singleton_append, scan?_append _ opening,
    scan?_append _ (scan?_intercalate stop each), closing]

end Bracketed

/-- The values of the texts of operands and lengths. -/
structure IndexScope where
  integer : String → Option Int64
  length : String → Option Nat

namespace IndexScope

open Bracketed (fields? interval?)

/-- The name and the arguments of a call of a kernel that may fail. -/
def call? (kernels : String) (cs : List Char) : Option (String × List (List Char)) := do
  let called ← cs.dropPrefix? (kernels ++ "::").toList
  let arguments ← (called.dropWhile (· ≠ '(')).dropPrefix? ['(']
  return (String.ofList (called.takeWhile (· ≠ '(')), ← fields? 0 (← arguments.dropSuffix? ")?".toList))

variable (scope : IndexScope) (kernels : String)

def word? (cs : List Char) : Option Int64 :=
  let cs := Blank.trimLeft cs
  (Reader.word? cs).or (scope.integer (String.ofList cs))

def size? (cs : List Char) : Option Nat :=
  ((Reader.natural? cs).filter (· ≤ Progression.unbounded)).or (scope.length (String.ofList cs))

def position? (cs : List Char) : Option (Except Fault Nat) :=
  let cs := Blank.trimLeft cs
  match call? kernels cs with
  | some ("to_index", [a]) => (scope.word? a).map Progression.toIndex
  | some ("to_index_after", [a]) => (scope.word? a).map Progression.toIndexAfter
  | some _ => none
  | none => (scope.size? cs).map .ok

def chunk? (cs : List Char) : Option (Except Fault (List Nat)) :=
  let cs := Blank.trimLeft cs
  match (cs.dropPrefix? "vec![".toList).bind (·.dropSuffix? [']']) with
  | some inner => do
    let positions ← (← fields? 0 inner).mapM (scope.position? kernels)
    return positions.mapM id
  | none =>
    match call? kernels cs with
    | some ("sequence", [a, b, c]) => do
      return Progression.sequence (← scope.word? a) (← scope.word? b) (← scope.word? c)
    | some ("sequence_to", [a, b, c]) => do
      let first ← scope.word? a
      let step ← scope.word? b
      let length ← scope.position? kernels c
      return length.bind (Progression.sequenceTo first step)
    | _ => none

/-- The value of a list of indices: a block that is collected, lists that are joined, or one list. -/
def list? (cs : List Char) : Option (Except Fault (List Nat)) :=
  match (cs.dropPrefix? ['(']).bind (·.dropSuffix? ").collect::<Vec<usize>>()".toList) with
  | some inner => do
    let (start, stop) ← interval? 0 inner
    let start ← scope.position? kernels start
    let stop ← scope.position? kernels stop
    return do
      let first ← start
      return List.range' first ((← stop) - first)
  | none =>
    match (cs.dropPrefix? ['[']).bind (·.dropSuffix? "].concat()".toList) with
    | some [] => some (.ok [])
    | some inner => do
      let chunks ← (← fields? 0 inner).mapM (scope.chunk? kernels)
      return List.flatten <$> chunks.mapM id
    | none => scope.chunk? kernels cs

end IndexScope

namespace ExtentText

/-- What the texts of an extent select. -/
def selection? (scope : IndexScope) (kernels : String) : ExtentText → Option (Except Fault Selection)
  | block start stop => do
    let first ← scope.position? kernels start.toList
    let last ← scope.position? kernels stop.toList
    return do return .block (← first) (← last)
  | indices text => (scope.list? kernels text.toList).map (·.map .listed)

end ExtentText

section Calls

open Bracketed (Enclosed scan? fields?)

variable {style : IndexStyle} {words : List String} {function : String} {arguments : List String}

namespace IndexStyle

theorem toList_call : (style.call function arguments).toList =
    (style.kernels ++ "::" ++ function).toList ++
      '(' :: ((", ".intercalate arguments).toList ++ [')', '?']) := by
  simp [call, -String.toList_intercalate]

theorem not_mem_callee (path : Grammar.IsPath style.kernels words) (name : Identifier.isName function)
    {c : Char} (other : Identifier.isPart c = false) (colon : c ≠ ':') :
    c ∉ (style.kernels ++ "::" ++ function).toList := by
  have kernels : c ∉ style.kernels.toList := by
    rw [path.joined]
    exact Grammar.not_mem_intercalate (by simpa using colon) fun word hw =>
      Grammar.not_mem_of_isName (path.names word hw) other
  simp [kernels, colon, Grammar.not_mem_of_isName name other]

theorem scan?_call (path : Grammar.IsPath style.kernels words) (name : Identifier.isName function)
    (each : ∀ b ∈ arguments, Enclosed b) {stop : Char} (hs : stop ∈ [',', '.']) :
    scan? stop 0 (style.call function arguments).toList = some 0 := by
  rw [toList_call]
  refine Bracketed.scan?_call hs (fun c hc => ⟨?_, fun bracket => ?_⟩) each
  · rintro rfl
    exact not_mem_callee path name (by fin_cases hs <;> decide) (by fin_cases hs <;> decide) hc
  · exact not_mem_callee path name (by fin_cases bracket <;> decide) (by fin_cases bracket <;> decide) hc

theorem exists_start_call (function : String) (arguments : List String)
    (path : Grammar.IsPath style.kernels words) :
    ∃ c cs, (style.call function arguments).toList = c :: cs ∧ Identifier.isStart c := by
  obtain ⟨word, more, rfl⟩ := List.exists_cons_of_ne_nil path.nonempty
  obtain ⟨c, cs, same, start, -⟩ := Identifier.exists_of_isName (path.names word (by simp))
  obtain ⟨rest, kernels⟩ := Bracketed.exists_intercalate "::" more same
  rw [toList_call, String.toList_append, String.toList_append, path.joined, kernels]
  exact ⟨c, _, rfl, start⟩

theorem trimLeft_call (path : Grammar.IsPath style.kernels words) :
    Blank.trimLeft (style.call function arguments).toList = (style.call function arguments).toList := by
  obtain ⟨c, cs, same, start⟩ := exists_start_call function arguments path
  simp [same, Blank.trimLeft, Grammar.isBlank_of_isStart start]

/-- A call is no list literal. -/
theorem dropPrefix?_call (path : Grammar.IsPath style.kernels words) (name : Identifier.isName function) :
    (style.call function arguments).toList.dropPrefix? "vec![".toList = none := by
  -- the first of the two marks is a bracket in a call, and is none in a list literal
  let inside (c : Char) : Bool := c ≠ '(' && c ≠ '!'
  have callee : ∀ c ∈ (style.kernels ++ "::" ++ function).toList, inside c := by
    intro c hc
    have opening : c ≠ '(' := fun h => not_mem_callee path name (by decide) (by decide) (h ▸ hc)
    have mark : c ≠ '!' := fun h => not_mem_callee path name (by decide) (by decide) (h ▸ hc)
    simp [inside, opening, mark]
  rw [Option.eq_none_iff_forall_ne_some]
  intro rest found
  obtain ⟨front, same, literal⟩ := List.dropPrefix?_eq_some_iff.mp found
  obtain rfl := eq_of_beq literal
  have left : ("vec![".toList ++ rest).dropWhile inside = '!' :: '[' :: rest := rfl
  rw [← same, toList_call, List.dropWhile_append_of_pos callee] at left
  simp [inside] at left

end IndexStyle

namespace IndexScope

theorem call?_call (style : IndexStyle) (name : Identifier.isName function) {first : String}
    {others : List String} (each : ∀ b ∈ first :: others, Enclosed b) :
    call? style.kernels (style.call function (first :: others)).toList =
      some (function, first.toList :: others.map (' ' :: ·.toList)) := by
  have called (rest : List Char) :
      ((style.kernels ++ "::" ++ function).toList ++ rest).dropPrefix? (style.kernels ++ "::").toList =
        some (function.toList ++ rest) := by
    rw [String.toList_append, List.append_assoc]
    exact List.dropPrefix?_append_of_beq _ (beq_self_eq_true _)
  have opening : ∀ c ∈ function.toList, (c ≠ '(' : Bool) := fun c hc => by
    have : c ≠ '(' := fun h => Grammar.not_mem_of_isName name (by decide) (h ▸ hc)
    simpa using this
  have closing : ((", ".intercalate (first :: others)).toList ++ [')', '?']).dropSuffix? ")?".toList =
      some (", ".intercalate (first :: others)).toList :=
    List.dropSuffix?_eq_some_iff.mpr ⟨_, rfl, beq_self_eq_true _⟩
  have parted := Bracketed.fields?_intercalate each
  rw [IndexStyle.toList_call, call?, called]
  simp only [Option.bind_eq_bind, Option.bind_some, List.dropWhile_append_of_pos opening,
    List.takeWhile_append_of_pos opening, List.dropWhile_cons, List.takeWhile_cons, ne_eq,
    not_true_eq_false, decide_false, Bool.false_eq_true, if_false, List.append_nil,
    String.ofList_toList, List.dropPrefix?, beq_self_eq_true, if_true, closing]
  simp [parted, -String.toList_intercalate]

theorem call?_eq_none {kernels : String} {cs : List Char} (plain : ':' ∉ cs) :
    call? kernels cs = none := by
  cases called : cs.dropPrefix? (kernels ++ "::").toList with
  | none => rw [call?, called]; rfl
  | some rest =>
      obtain ⟨front, rfl, same⟩ := List.dropPrefix?_eq_some_iff.mp called
      obtain rfl := eq_of_beq same
      simp at plain

end IndexScope

end Calls

namespace IndexScope

open Bracketed (Enclosed scan?)

/-- The text stands for an integer. -/
structure Reads (scope : IndexScope) (text : String) (x : Int64) : Prop where
  enclosed : Enclosed text
  value : scope.word? text.toList = some x

/-- The text stands for an index. -/
structure Places (scope : IndexScope) (kernels text : String) (i : Except Fault Nat) : Prop where
  enclosed : Enclosed text
  value : scope.position? kernels text.toList = some i

/-- The text stands for an index, and can stand before dots. -/
structure Starts (scope : IndexScope) (kernels text : String) (i : Except Fault Nat) : Prop
    extends scope.Places kernels text i where
  undotted : scan? '.' 0 text.toList = some 0

/-- The text stands for a list of indices, which is also its meaning when it stands alone. A list literal
does not stand alone. -/
structure Lists (scope : IndexScope) (kernels text : String) (is : Except Fault (List Nat)) : Prop where
  enclosed : Enclosed text
  nonempty : text.toList ≠ []
  value : scope.chunk? kernels text.toList = some is
  alone : ¬"vec!".toList <+: text.toList → scope.list? kernels text.toList = some is

variable {scope : IndexScope} {style : IndexStyle} {words : List String}

theorem word?_blank (cs : List Char) : scope.word? (' ' :: cs) = scope.word? cs := rfl

theorem position?_blank {kernels : String} (cs : List Char) :
    scope.position? kernels (' ' :: cs) = scope.position? kernels cs := rfl

theorem chunk?_blank {kernels : String} (cs : List Char) :
    scope.chunk? kernels (' ' :: cs) = scope.chunk? kernels cs := rfl

theorem isNumeral_of_mem_text {x : Int64} {c : Char} (hc : c ∈ (Word.text x).toList) :
    Decimal.IsNumeral c := by
  rw [Word.text, NumberText.toString_eq_signed] at hc
  exact NumberText.isNumeral_of_mem_signed (NumberText.numeric_repr _) hc

theorem enclosed_text (x : Int64) : Enclosed (Word.text x) :=
  Bracketed.enclosed_of_plain fun c hc special =>
    (isNumeral_of_mem_text hc).ne_of_not_isDigit (by fin_cases special <;> decide)
      (by fin_cases special <;> decide) rfl

theorem trimLeft_text (x : Int64) : Blank.trimLeft (Word.text x).toList = (Word.text x).toList := by
  cases same : (Word.text x).toList with
  | nil => rfl
  | cons c cs =>
      have hc : c ∈ (Word.text x).toList := by simp [same]
      simp [Blank.trimLeft, (isNumeral_of_mem_text hc).isBlank_eq_false]

theorem reads_text (x : Int64) : scope.Reads (Word.text x) x where
  enclosed := enclosed_text x
  value := by simp [word?, trimLeft_text, Reader.word?_text]

theorem starts_text {kernels : String} {x : Int64} (positive : 0 ≤ x) :
    scope.Starts kernels (Word.text x) (Progression.toIndex x) := by
  have nonneg : 0 ≤ x.toInt := Int64.le_iff_toInt_le.mp positive
  obtain ⟨n, hn⟩ := Int.eq_ofNat_of_zero_le nonneg
  have written : Word.text x = Nat.repr n := by
    rw [Word.text, hn]
    rfl
  have digit {c : Char} (hc : c ∈ (Word.text x).toList) : c.isDigit :=
    Reader.isDigit_of_mem_repr (written ▸ hc)
  have size : scope.size? (Word.text x).toList = some n := by
    have small : n ≤ Progression.unbounded := by
      have : x.toInt < 2 ^ 63 := x.toInt_lt
      rw [Progression.unbounded]
      omega
    rw [size?, written, Reader.natural?_repr, Option.filter_some, if_pos (by simpa using small),
      Option.some_or]
  have uncalled : call? kernels (Word.text x).toList = none :=
    call?_eq_none fun colon => absurd (digit colon) (by decide)
  refine ⟨⟨enclosed_text x, ?_⟩, Bracketed.scan?_of_plain fun c hc => ⟨?_, fun bracket => ?_⟩⟩
  · simp [position?, trimLeft_text, uncalled, size, Progression.toIndex, hn]
    rfl
  · rintro rfl
    exact absurd (digit hc) (by decide)
  · exact absurd (digit hc) (by fin_cases bracket <;> decide)

variable (path : Grammar.IsPath style.kernels words)

include path

theorem starts_toIndex {text : String} {x : Int64} (reads : scope.Reads text x) :
    scope.Starts style.kernels (style.call "to_index" [text]) (Progression.toIndex x) := by
  have name : Identifier.isName "to_index" := by decide
  have each : ∀ b ∈ [text], Enclosed b := List.forall_mem_singleton.mpr reads.enclosed
  refine ⟨⟨IndexStyle.scan?_call path name each (by simp), ?_⟩,
    IndexStyle.scan?_call path name each (by simp)⟩
  simp [position?, IndexStyle.trimLeft_call path, call?_call style name each, reads.value]

theorem starts_toIndexAfter {text : String} {x : Int64} (reads : scope.Reads text x) :
    scope.Starts style.kernels (style.call "to_index_after" [text]) (Progression.toIndexAfter x) := by
  have name : Identifier.isName "to_index_after" := by decide
  have each : ∀ b ∈ [text], Enclosed b := List.forall_mem_singleton.mpr reads.enclosed
  refine ⟨⟨IndexStyle.scan?_call path name each (by simp), ?_⟩,
    IndexStyle.scan?_call path name each (by simp)⟩
  simp [position?, IndexStyle.trimLeft_call path, call?_call style name each, reads.value]

/-- A call that stands for a list of indices can stand alone. -/
theorem lists_call {function : String} {arguments : List String} (name : Identifier.isName function)
    (each : ∀ b ∈ arguments, Enclosed b) {is : Except Fault (List Nat)}
    (value : scope.chunk? style.kernels (style.call function arguments).toList = some is) :
    scope.Lists style.kernels (style.call function arguments) is := by
  obtain ⟨c, cs, same, start⟩ := IndexStyle.exists_start_call function arguments path
  have opens {bracket : Char} (other : Identifier.isStart bracket = false) :
      (style.call function arguments).toList.dropPrefix? [bracket] = none := by
    have : c ≠ bracket := fun h => Bool.false_ne_true (other.symm.trans (h ▸ start))
    rw [same, List.dropPrefix?, if_neg (by simpa using this)]
  refine ⟨IndexStyle.scan?_call path name each (by simp), by simp [same], value, fun _ => ?_⟩
  rw [list?, opens (by decide), opens (by decide), Option.bind_none]
  exact value

theorem lists_sequence {first step last : String} {x y z : Int64} (hx : scope.Reads first x)
    (hy : scope.Reads step y) (hz : scope.Reads last z) :
    scope.Lists style.kernels (style.call "sequence" [first, step, last])
      (Progression.sequence x y z) := by
  have each : ∀ b ∈ [first, step, last], Enclosed b := by
    simp [hx.enclosed, hy.enclosed, hz.enclosed]
  have name : Identifier.isName "sequence" := by decide
  refine lists_call path name each ?_
  simp only [chunk?, IndexStyle.trimLeft_call path, IndexStyle.dropPrefix?_call path name,
    call?_call style name each]
  simp [word?_blank, hx.value, hy.value, hz.value]

theorem lists_sequenceTo {first step last : String} {x y : Int64} {length : Nat}
    (hx : scope.Reads first x) (hy : scope.Reads step y) (hz : scope.Places style.kernels last (.ok length)) :
    scope.Lists style.kernels (style.call "sequence_to" [first, step, last])
      (Progression.sequenceTo x y length) := by
  have each : ∀ b ∈ [first, step, last], Enclosed b := by
    simp [hx.enclosed, hy.enclosed, hz.enclosed]
  have name : Identifier.isName "sequence_to" := by decide
  refine lists_call path name each ?_
  simp only [chunk?, IndexStyle.trimLeft_call path, IndexStyle.dropPrefix?_call path name,
    call?_call style name each]
  simp [word?_blank, position?_blank, hx.value, hy.value, hz.value, Except.bind]

omit path in
theorem lists_vec {kernels text : String} {i : Except Fault Nat} (places : scope.Places kernels text i) :
    scope.Lists kernels ("vec![" ++ text ++ "]") (return [← i]) := by
  have chars : ("vec![" ++ text ++ "]").toList = "vec![".toList ++ (text.toList ++ [']']) := by simp
  have inner : ("vec![".toList ++ (text.toList ++ [']'])).dropPrefix? "vec![".toList =
      some (text.toList ++ [']']) := List.dropPrefix?_append_of_beq _ (beq_self_eq_true _)
  have closing : (text.toList ++ [']']).dropSuffix? [']'] = some text.toList :=
    List.dropSuffix?_eq_some_iff.mpr ⟨_, rfl, beq_self_eq_true _⟩
  have untrimmed : Blank.trimLeft ("vec![".toList ++ (text.toList ++ [']'])) =
      "vec![".toList ++ (text.toList ++ [']']) := rfl
  refine ⟨?_, by simp [chars], ?_, fun other => absurd ⟨'[' :: (text.toList ++ [']']), chars.symm⟩ other⟩
  · rw [Enclosed, chars, Bracketed.scan?_append _ (show scan? ',' 0 "vec![".toList = some 1 from rfl),
      Bracketed.scan?_append _ (Bracketed.scan?_succ ',' places.enclosed)]
    rfl
  · rw [chars, chunk?, untrimmed, inner, Option.bind_some, closing]
    simp [Bracketed.fields?_enclosed places.enclosed, places.value]

section Lists

variable {kernels : String}

omit path

theorem enclosed_of_lists {texts : List String} {values : List (Except Fault (List Nat))}
    (each : List.Forall₂ (scope.Lists kernels) texts values) : ∀ b ∈ texts, Enclosed b := by
  induction each with
  | nil => simp
  | cons first _ ih => exact List.forall_mem_cons.mpr ⟨first.enclosed, ih⟩

theorem mapM_chunk? {texts : List String} {values : List (Except Fault (List Nat))}
    (each : List.Forall₂ (scope.Lists kernels) texts values) :
    (texts.map (' ' :: ·.toList)).mapM (scope.chunk? kernels) = some values := by
  induction each with
  | nil => rfl
  | cons first _ ih =>
      rw [List.map_cons, List.mapM_cons, chunk?_blank, first.value, ih]
      rfl

theorem list?_concat {texts : List String} {values : List (Except Fault (List Nat))}
    (each : List.Forall₂ (scope.Lists kernels) texts values) :
    scope.list? kernels ("[" ++ ", ".intercalate texts ++ "].concat()").toList =
      some (List.flatten <$> values.mapM id) := by
  have chars : ("[" ++ ", ".intercalate texts ++ "].concat()").toList =
      '[' :: ((", ".intercalate texts).toList ++ "].concat()".toList) := by
    simp [-String.toList_intercalate]
  have closing : ((", ".intercalate texts).toList ++ "].concat()".toList).dropSuffix?
      "].concat()".toList = some (", ".intercalate texts).toList :=
    List.dropSuffix?_eq_some_iff.mpr ⟨_, rfl, beq_self_eq_true _⟩
  have opened (cs : List Char) : (['['] ++ cs).dropPrefix? ['['] = some cs :=
    List.dropPrefix?_append_of_beq cs (beq_self_eq_true _)
  rw [chars, ← List.singleton_append, list?, show (['['] ++ _).dropPrefix? ['('] = none from rfl, opened,
    Option.bind_none, Option.bind_some, closing]
  cases each with
  | nil => rfl
  | @cons text value texts values first others =>
      -- only the empty text has no fields, and no list has an empty text
      have parted := Bracketed.fields?_intercalate (enclosed_of_lists (.cons first others))
      obtain ⟨c, cs, head⟩ := List.exists_cons_of_ne_nil first.nonempty
      obtain ⟨rest, same⟩ := Bracketed.exists_intercalate ", " texts head
      rw [same] at parted
      rw [same]
      simp [parted, first.value, mapM_chunk? others]

/-- A block is collected into the indices from its start up to its end. -/
theorem list?_collect {start stop : String} {i j : Except Fault Nat} (first : scope.Starts kernels start i)
    (last : scope.Places kernels stop j) :
    scope.list? kernels (ExtentText.block start stop).asList.toList = some (do
      let first ← i
      return List.range' first ((← j) - first)) := by
  have chars : (ExtentText.block start stop).asList.toList =
      ['('] ++ ((start.toList ++ '.' :: '.' :: stop.toList) ++ ").collect::<Vec<usize>>()".toList) := by
    simp [ExtentText.asList]
  have opened (cs : List Char) : (['('] ++ cs).dropPrefix? ['('] = some cs :=
    List.dropPrefix?_append_of_beq cs (beq_self_eq_true _)
  have closing (cs : List Char) : (cs ++ ").collect::<Vec<usize>>()".toList).dropSuffix?
      ").collect::<Vec<usize>>()".toList = some cs :=
    List.dropSuffix?_eq_some_iff.mpr ⟨_, rfl, beq_self_eq_true _⟩
  rw [chars, list?, opened, Option.bind_some, closing]
  simp [Bracketed.interval?_dots _ first.undotted, first.value, last.value]

end Lists

end IndexScope

end MatrixCode
