import MatrixCode.Proofs.Lexing
import MatrixCode.Proofs.Spelling

/-!
Expressions made by folding. Each instruction on scalars has a tree, which is made of the trees of
its operands. When instructions are folded one into another, the text of every variable is read as
its tree, and as nothing else: parentheses stand wherever they are needed.
-/

namespace MatrixCode
namespace Grammar

/-- The type of doubles. -/
def doubleType : String := "f64"

/-- An integer as a double: a literal with the same value, or a cast. -/
def Expression.widened (literal : Bool) (e : Expression) : Expression :=
  match literal, e.whole? with
  | true, some z => .ofDouble (Binary.ofInt z)
  | _, _ => .cast e doubleType

/-- The expression of a variable where a double is expected. -/
def wide (t : Table) (trees : Handle → Expression) (h : Handle) : Expression :=
  match t.get? h with
  | some v => if v.kind = .integer then (trees h).widened v.literalInteger?.isSome else trees h
  | none => trees h

def onDoubles (function : String) (arguments : List Expression) : Expression :=
  .call (.path [doubleType, function]) arguments

/-- The tree of an operation with one operand, which is given as it is and as a double. -/
def unaryTree? (kernels : List String) (a wide : Expression) :
    Primitive → Signature → Option Expression
  | .negate, .i => some (.negate a)
  | .negate, .s => some (.negate wide)
  | .copy, .ii | .maximum, .i | .minimum, .i => some a
  | .copy, .ss | .determinant, .s | .maximum, .s | .minimum, .s | .sum, .s => some wide
  | .abs, .i => some (.call (.path ["i64", "abs"]) [a])
  | .abs, .s | .normF, .s | .normP, .ss => some (onDoubles "abs" [wide])
  | .inverse, .s => some (.binary .divide (.real 1.0) wide)
  | .pseudoInverse, .s => some (.call (.path (kernels ++ ["pinv_scalar"])) [wide])
  | .echelon, .s => some (.call (.path (kernels ++ ["rref_scalar"])) [wide])
  | .sqrt, .s | .sqrt, .i => some (onDoubles "sqrt" [wide])
  | .sin, .s | .sin, .i => some (onDoubles "sin" [wide])
  | .cos, .s | .cos, .i => some (onDoubles "cos" [wide])
  | .atan, .s | .atan, .i => some (onDoubles "atan" [wide])
  | .exp, .s | .exp, .i => some (onDoubles "exp" [wide])
  | .log, .s | .log, .i => some (onDoubles "ln" [wide])
  | _, _ => none

/-- The tree of an operation with two operands. -/
def binaryTree? (kernels : List String) (a b wideA wideB : Expression) :
    Primitive → Signature → Option Expression
  | .add, .ii => some (.binary .add a b)
  | .add, .ss => some (.binary .add wideA wideB)
  | .subtract, .ii => some (.binary .subtract a b)
  | .subtract, .ss => some (.binary .subtract wideA wideB)
  | .multiply, .ii => some (.binary .multiply a b)
  | .multiply, .ss => some (.binary .multiply wideA wideB)
  | .divide, .ii => some (.attempt (.call (.path (kernels ++ ["divide_integer"])) [a, b]))
  | .divide, .ss => some (.binary .divide wideA wideB)
  | .elementPower, .ss => some (onDoubles "powf" [wideA, wideB])
  | .atan2, .ss => some (onDoubles "atan2" [wideA, wideB])
  | _, _ => none

/-- The tree of an instruction; operands that it does not need are ignored. -/
def tree? (kernels : List String) (t : Table) (trees : Handle → Expression) (i : Instruction) :
    Option Expression :=
  match i.inputs with
  | [] => none
  | [a] => unaryTree? kernels (trees a) (wide t trees a) i.primitive i.signature
  | a :: b :: _ =>
    unaryTree? kernels (trees a) (wide t trees a) i.primitive i.signature <|>
      binaryTree? kernels (trees a) (trees b) (wide t trees a) (wide t trees b) i.primitive i.signature

/-- The trees of variables that have not been folded. -/
inductive Denotes (w : Writer) (h : Handle) : Variable → Expression → Prop
  | name {v : Variable} (name : Identifier.isName v.name) (reserved : v.name ∉ Identifier.castWords)
      (inner : v.temporary ∨ w.output ≠ some h) : Denotes w h v (.path [v.name])
  | output {v : Variable} (name : Identifier.isName v.name)
      (reserved : v.name ∉ Identifier.castWords) (lasting : ¬v.temporary) (output : w.output = some h) :
      Denotes w h v (.dereference (.path [v.name]))
  | integer (x : Int64) : Denotes w h (.integerLiteral x) (.ofInt x.toInt)
  | double {x : Float} (finite : x.isFinite) : Denotes w h (.doubleLiteral x) (.ofDouble x)

/-- Tables that come from folding instructions one after the other, with the trees of all variables. -/
inductive Succession (w : Writer) (kernels : List String) : Table → (Handle → Expression) → Prop
  | start {t : Table} {trees : Handle → Expression}
      (each : ∀ h v, t.get? h = some v → v.kind.isScalar → Denotes w h v (trees h)) :
      Succession w kernels t trees
  | fold {t : Table} {trees : Handle → Expression} {i : Instruction} {h : Handle} {s : ScalarText}
      {e : Expression} (before : Succession w kernels t trees) (output : i.output = some h)
      (folded : w.fold t i = .ok (some s)) (tree : tree? kernels t trees i = some e) :
      Succession w kernels (t.modify h (·.foldInto s.text s.precedence)) (Function.update trees h e)

theorem rank_le_primary (l : Level) : l.rank ≤ Level.primary.rank := by
  cases l <;> decide

section Operands

variable {w : Writer} {t : Table} {h : Handle} {v : Variable} {e : Expression} {context : Nat}

/-- The text of the variable is its tree, at the level of its precedence. -/
structure Means (w : Writer) (h : Handle) (v : Variable) (e : Expression) : Prop where
  literal : v.isLiteral → Spells v.operand (.ofPrecedence v.precedence) e
  name : ¬v.isLiteral → Identifier.isName v.name ∧ v.name ≠ castWord ∧
    e = if w.role h v = .output then .dereference (.path [v.name]) else .path [v.name]

theorem spells_operandIn (s : Spells v.operand (.ofPrecedence v.precedence) e) :
    Spells (v.operandIn context) (.ofPrecedence context) e := by
  rw [Variable.operandIn]
  split
  · exact (s.lift (Nat.zero_le _)).group.lift (rank_le_primary _)
  · next high => exact s.lift (rank_ofPrecedence_le (Nat.le_of_not_lt high))

theorem scalar_eq_of_isLiteral (hv : t.get? h = some v) (literal : v.isLiteral) :
    w.scalar t h context = .ok (v.operandIn context) := by
  have role : w.role h v = .literal := by simp [Writer.role, literal]
  exact Outcome.toOption_eq_some.mp (by simp [Writer.scalar, hv, role])

theorem scalar_eq_of_output (hv : t.get? h = some v) (role : w.role h v = .output) :
    w.scalar t h context = .ok (if Precedence.unary < context then Writer.inParentheses ("*" ++ v.name)
      else "*" ++ v.name) :=
  Outcome.toOption_eq_some.mp (by simp [Writer.scalar, hv, role])

theorem scalar_eq_name (hv : t.get? h = some v) (literal : ¬v.isLiteral)
    (role : w.role h v ≠ .output) : w.scalar t h context = .ok v.name := by
  have other : w.role h v = .temporary ∨ w.role h v = .input := by
    unfold Writer.role at role ⊢
    split_ifs at role ⊢ <;> simp_all
  rcases other with role | role
  · exact Outcome.toOption_eq_some.mp (by simp [Writer.scalar, hv, role])
  · exact Outcome.toOption_eq_some.mp (by simp [Writer.scalar, hv, role])

/-- A scalar operand spells its tree, at the level of the context. -/
theorem spells_scalar (hv : t.get? h = some v) (means : Means w h v e) (context : Nat) :
    ∃ text, w.scalar t h context = .ok text ∧ Spells text (.ofPrecedence context) e := by
  by_cases literal : v.isLiteral
  · exact ⟨_, scalar_eq_of_isLiteral hv literal, spells_operandIn (means.literal literal)⟩
  · obtain ⟨name, reserved, rfl⟩ := means.name literal
    have path := spells_name name reserved
    by_cases role : w.role h v = .output
    · refine ⟨_, scalar_eq_of_output hv role, ?_⟩
      have star := (path.lift (l := .unary) (by decide)).dereference
      rw [if_pos role]
      split
      · exact (star.lift (Nat.zero_le _)).group.lift (rank_le_primary _)
      · next high => exact star.lift (rank_ofPrecedence_le (Nat.le_of_not_lt high))
    · rw [if_neg role]
      exact ⟨_, scalar_eq_name hv literal role, path.lift (rank_le_primary _)⟩

/-- Where an integer operand is a literal number, its tree is that number. -/
theorem whole?_of_literalInteger? {x : Int64} (means : Means w h v e)
    (literal : v.literalInteger? = some x) : e.whole? = some x.toInt := by
  unfold Variable.literalInteger? at literal
  split at literal
  · obtain ⟨body, named, word⟩ := Option.bind_eq_some_iff.mp literal
    have operand : v.operand = String.ofList body := by rw [Variable.operand, named]
    have spells := means.literal (by simp [Variable.isLiteral, named])
    rw [operand] at spells
    exact whole?_of_word? spells.reads (by rwa [String.toList_ofList])
  · cases literal

theorem natAbs_toInt_lt (x : Int64) : x.toInt.natAbs < 2 ^ 64 := by
  have lower : -2 ^ 63 ≤ x.toInt := x.le_toInt
  have upper : x.toInt < 2 ^ 63 := x.toInt_lt
  omega

/-- A scalar operand as a double spells its wide tree. -/
theorem spells_wide {trees : Handle → Expression} (hv : t.get? h = some v)
    (means : Means w h v (trees h)) (context : Nat) :
    ∃ text, w.double t h context = .ok text ∧ Spells text (.ofPrecedence context) (wide t trees h) := by
  by_cases kind : v.kind = .integer
  · cases hx : v.literalInteger? with
    | some x =>
        have whole := whole?_of_literalInteger? means hx
        obtain ⟨m, q, decoded⟩ := Binary.decode_ofInt (natAbs_toInt_lt x)
        have spells := spells_double decoded
        have tree : wide t trees h = .ofDouble (Binary.ofInt x.toInt) := by
          simp [wide, hv, kind, hx, Expression.widened, whole]
        refine ⟨_, Outcome.toOption_eq_some.mp (by simp [Writer.double, hv, kind, hx]; rfl), ?_⟩
        rw [tree]
        split
        · exact (spells.lift (Nat.zero_le _)).group.lift (rank_le_primary _)
        · next high =>
            by_cases negative : x.toInt < 0
            · have low : context ≤ Precedence.unary :=
                Nat.le_of_not_lt fun above => high ⟨Int64.lt_iff_toInt_lt.mpr negative, above⟩
              refine spells.lift (rank_ofPrecedence_le ?_)
              simpa [Precedence.ofSign, negative] using low
            · simp only [negative, decide_false] at spells
              exact spells.lift (rank_le_primary _)
    | none =>
        have tree : wide t trees h = .cast (trees h) doubleType := by
          simp [wide, hv, kind, hx, Expression.widened]
        obtain ⟨text, written, spells⟩ := spells_scalar hv means Precedence.atom
        refine ⟨Writer.inParentheses (text ++ " as " ++ doubleType), ?_, ?_⟩
        · rw [String.append_assoc]
          exact Outcome.toOption_eq_some.mp (by simp [Writer.double, hv, kind, hx, written]; rfl)
        · have name : Identifier.isName doubleType := by decide
          have cast := (spells.lift (l := .cast) (by decide)).cast name
          rw [tree]
          exact (cast.lift (Nat.zero_le _)).group.lift (rank_le_primary _)
  · have tree : wide t trees h = trees h := by simp [wide, hv, kind]
    obtain ⟨text, written, spells⟩ := spells_scalar hv means context
    refine ⟨text, ?_, tree ▸ spells⟩
    exact Outcome.toOption_eq_some.mp (by simp [Writer.double, hv, kind, written])

end Operands

section Phrases

variable {w : Writer} {t : Table} {kernels : List String} {trees : Handle → Expression}

/-- The tree of an operand, as a double where that is asked for. -/
def operandTree (t : Table) (trees : Handle → Expression) (widen : Bool) (h : Handle) : Expression :=
  if widen then wide t trees h else trees h

def Operation.precedence : Operation → Nat
  | add | subtract => Precedence.additive
  | multiply | divide => Precedence.multiplicative

/-- The trees of phrases. -/
inductive Shows (kernels : List String) (t : Table) (trees : Handle → Expression) :
    Phrase → Expression → Prop
  | between (op : Operation) (widen : Bool) (a b : Handle) :
      Shows kernels t trees (.between op.sign op.precedence widen a b)
        (.binary op (operandTree t trees widen a) (operandTree t trees widen b))
  | negation (widen : Bool) (a : Handle) :
      Shows kernels t trees (.negation widen a) (.negate (operandTree t trees widen a))
  | alone (widen : Bool) (a : Handle) :
      Shows kernels t trees (.alone widen a) (operandTree t trees widen a)
  | reciprocal (a : Handle) :
      Shows kernels t trees (.reciprocal a) (.binary .divide (.real 1.0) (wide t trees a))
  | integerQuotient (a b : Handle) : Shows kernels t trees (.integerQuotient a b)
      (.attempt (.call (.path (kernels ++ ["divide_integer"])) [trees a, trees b]))
  | integerAbs (a : Handle) :
      Shows kernels t trees (.integerAbs a) (.call (.path ["i64", "abs"]) [trees a])
  | function {name : String} {words : List String} (path : IsPath name words)
      (arguments : List Handle) : Shows kernels t trees (.function name arguments)
        (.call (.path words) (arguments.map (wide t trees)))
  | library {name : String} (word : Identifier.isName name) (reserved : name ≠ castWord) (a : Handle) :
      Shows kernels t trees (.library name a) (.call (.path (kernels ++ [name])) [wide t trees a])

/-- The operand is in the table, and its text is its tree. -/
def Known (w : Writer) (t : Table) (trees : Handle → Expression) (h : Handle) : Prop :=
  ∃ v, t.get? h = some v ∧ Means w h v (trees h)

theorem Known.scalar {h : Handle} (known : Known w t trees h) (context : Nat) :
    ∃ text, w.scalar t h context = .ok text ∧ Spells text (.ofPrecedence context) (trees h) :=
  known.elim fun _ ⟨hv, means⟩ => spells_scalar hv means context

theorem Known.double {h : Handle} (known : Known w t trees h) (context : Nat) :
    ∃ text, w.double t h context = .ok text ∧
      Spells text (.ofPrecedence context) (wide t trees h) :=
  known.elim fun _ ⟨hv, means⟩ => spells_wide hv means context

theorem Known.operand {h : Handle} (known : Known w t trees h) (widen : Bool) (context : Nat) :
    ∃ text, w.operand t widen h context = .ok text ∧
      Spells text (.ofPrecedence context) (operandTree t trees widen h) := by
  cases widen with
  | true => exact known.double context
  | false => exact known.scalar context

theorem spells_arguments {hs : List Handle} (known : ∀ h ∈ hs, Known w t trees h) :
    ∃ texts, hs.mapM (w.double t · 0) = .ok texts ∧
      List.Forall₂ (fun text e => Spells text .sum e) texts (hs.map (wide t trees)) := by
  induction hs with
  | nil => exact ⟨[], rfl, .nil⟩
  | cons h hs ih =>
      obtain ⟨first, others⟩ := List.forall_mem_cons.mp known
      obtain ⟨text, written, spells⟩ := first.double 0
      obtain ⟨texts, rest, each⟩ := ih others
      exact ⟨text :: texts, by rw [List.mapM_cons, written, rest]; rfl, .cons spells each⟩

theorem isPath_kernel {text name : String} {words : List String} (path : IsPath text words)
    (word : Identifier.isName name) (reserved : name ≠ castWord) :
    IsPath (text ++ "::" ++ name) (words ++ [name]) where
  joined := by
    rw [String.intercalate_append_of_ne_nil path.nonempty (by simp), path.joined,
      String.intercalate_singleton]
  nonempty := by simp
  names := by
    intro x hx
    rcases List.mem_append.mp hx with hx | hx
    · exact path.names x hx
    · rwa [List.mem_singleton.mp hx]
  reserved := by simpa [path.reserved] using reserved.symm

theorem spells_between (op : Operation) {text text' : String} {e e' : Expression}
    (left : Spells text (.ofPrecedence op.precedence) e)
    (right : Spells text' (.ofPrecedence (op.precedence + 1)) e') :
    Spells (text ++ " " ++ op.sign ++ " " ++ text') (.ofPrecedence op.precedence) (.binary op e e') := by
  have level : Level.ofPrecedence op.precedence = op.level := by cases op <;> rfl
  rw [level] at left ⊢
  exact left.binary op (right.lift (by cases op <;> decide))

theorem call_fallible (function : String) (texts : List String) :
    Writer.call function texts true = Writer.call function texts false ++ "?" := by
  simp [Writer.call]

theorem spells_one : Spells "1.0" .primary (.real 1.0) := by
  have numeric : Decimal.Numeric ['1', '.', '0'] :=
    Decimal.numeric_of_digits ⟨_, _, rfl, by decide⟩ (by simp)
  exact spells_signed false numeric rfl

/-- The text of a phrase is its tree, at the level of its precedence. -/
theorem spells_phrase {phrase : Phrase} {e : Expression} (path : IsPath w.kernels kernels)
    (known : ∀ h ∈ phrase.handles, Known w t trees h) (tree : Shows kernels t trees phrase e) :
    ∃ s, w.phrase t phrase = .ok s ∧ Spells s.text (.ofPrecedence s.precedence) e := by
  cases tree with
  | between op widen a b =>
      obtain ⟨left, right⟩ : Known w t trees a ∧ Known w t trees b := by
        simpa [Phrase.handles] using known
      obtain ⟨text, written, spells⟩ := left.operand widen op.precedence
      obtain ⟨text', written', spells'⟩ := right.operand widen (op.precedence + 1)
      refine ⟨⟨text ++ " " ++ op.sign ++ " " ++ text', op.precedence⟩, ?_,
        spells_between op spells spells'⟩
      exact Outcome.toOption_eq_some.mp (by simp [Writer.phrase, written, written'])
  | negation widen a =>
      have known : Known w t trees a := by simpa [Phrase.handles] using known
      obtain ⟨text, written, spells⟩ := known.operand widen Precedence.atom
      refine ⟨⟨"-" ++ text, Precedence.unary⟩, ?_, (spells.lift (l := .unary) (by decide)).negate⟩
      exact Outcome.toOption_eq_some.mp (by simp [Writer.phrase, written])
  | alone widen a =>
      have known : Known w t trees a := by simpa [Phrase.handles] using known
      obtain ⟨text, written, spells⟩ := known.operand widen Precedence.atom
      refine ⟨⟨text, Precedence.atom⟩, ?_, spells⟩
      exact Outcome.toOption_eq_some.mp (by simp [Writer.phrase, written])
  | reciprocal a =>
      have known : Known w t trees a := by simpa [Phrase.handles] using known
      obtain ⟨text, written, spells⟩ := known.double (Precedence.multiplicative + 1)
      refine ⟨⟨"1.0 / " ++ text, Precedence.multiplicative⟩, ?_, ?_⟩
      · exact Outcome.toOption_eq_some.mp (by simp [Writer.phrase, written])
      · exact spells_between .divide (spells_one.lift (rank_le_primary _)) spells
  | integerQuotient a b =>
      obtain ⟨left, right⟩ : Known w t trees a ∧ Known w t trees b := by
        simpa [Phrase.handles] using known
      obtain ⟨text, written, spells⟩ := left.scalar 0
      obtain ⟨text', written', spells'⟩ := right.scalar 0
      have name : Identifier.isName "divide_integer" := by decide
      have function := (isPath_kernel path name (by decide)).spells
      refine ⟨⟨Writer.call (w.path "divide_integer") [text, text'] true, Precedence.atom⟩, ?_, ?_⟩
      · exact Outcome.toOption_eq_some.mp (by simp [Writer.phrase, written, written'])
      · rw [call_fallible]
        exact (function.call (.cons spells (.cons spells' .nil))).attempt
  | integerAbs a =>
      have known : Known w t trees a := by simpa [Phrase.handles] using known
      obtain ⟨text, written, spells⟩ := known.scalar 0
      have function : Spells "i64::abs" .primary (.path ["i64", "abs"]) := IsPath.spells (by decide)
      refine ⟨⟨Writer.call "i64::abs" [text] false, Precedence.atom⟩, ?_,
        function.call (.cons spells .nil)⟩
      exact Outcome.toOption_eq_some.mp (by simp [Writer.phrase, written])
  | @function name words path arguments =>
      have known : ∀ h ∈ arguments, Known w t trees h := known
      obtain ⟨texts, written, each⟩ := spells_arguments known
      refine ⟨⟨Writer.call name texts false, Precedence.atom⟩, ?_, path.spells.call each⟩
      exact Outcome.toOption_eq_some.mp (by simp [Writer.phrase, written])
  | @library name word reserved a =>
      have known : Known w t trees a := by simpa [Phrase.handles] using known
      obtain ⟨text, written, spells⟩ := known.double 0
      have function := (isPath_kernel path word reserved).spells
      refine ⟨⟨Writer.call (w.path name) [text] false, Precedence.atom⟩, ?_,
        function.call (.cons spells .nil)⟩
      exact Outcome.toOption_eq_some.mp (by simp [Writer.phrase, written])

/-- Every phrase with one operand has the tree of its operation. -/
theorem shows_of_unary? {a : Handle} {p : Primitive} {signature : Signature} {phrase : Phrase}
    (h : Phrase.unary? a p signature = some phrase) :
    ∃ e, unaryTree? kernels (trees a) (wide t trees a) p signature = some e ∧
      Shows kernels t trees phrase e := by
  unfold Phrase.unary? at h
  split at h
  all_goals cases h
  all_goals refine ⟨_, rfl, ?_⟩
  · exact .negation false a
  · exact .negation true a
  iterate 3 exact .alone false a
  iterate 5 exact .alone true a
  · exact .integerAbs a
  iterate 3 exact .function (by decide) [a]
  · exact .reciprocal a
  iterate 2 exact .library (by decide) (by decide) a
  -- the functions on doubles, for an operand of either kind
  iterate 12 exact .function (by decide) [a]

/-- Every phrase with two operands has the tree of its operation. -/
theorem shows_of_binary? {a b : Handle} {p : Primitive} {signature : Signature} {phrase : Phrase}
    (h : Phrase.binary? a b p signature = some phrase) :
    ∃ e, binaryTree? kernels (trees a) (trees b) (wide t trees a) (wide t trees b) p signature =
        some e ∧ Shows kernels t trees phrase e := by
  unfold Phrase.binary? at h
  split at h
  all_goals cases h
  all_goals refine ⟨_, rfl, ?_⟩
  · exact .between .add false a b
  · exact .between .add true a b
  · exact .between .subtract false a b
  · exact .between .subtract true a b
  · exact .between .multiply false a b
  · exact .between .multiply true a b
  · exact .integerQuotient a b
  · exact .between .divide true a b
  iterate 2 exact .function (by decide) [a, b]

/-- No operation has both one operand and two. -/
theorem unaryTree?_of_binary? {a b : Handle} {p : Primitive} {signature : Signature} {phrase : Phrase}
    (h : Phrase.binary? a b p signature = some phrase) (x y : Expression) :
    unaryTree? kernels x y p signature = none := by
  unfold Phrase.binary? at h
  split at h
  all_goals cases h
  all_goals rfl

variable (kernels t trees) in
/-- Every phrase has the tree of its instruction. -/
theorem shows_of_ofInstruction? {i : Instruction} {phrase : Phrase}
    (h : Phrase.ofInstruction? i = some phrase) :
    ∃ e, tree? kernels t trees i = some e ∧ Shows kernels t trees phrase e := by
  obtain ⟨a, rest, inputs, first⟩ | ⟨a, b, rest, inputs, second⟩ := Phrase.cases_ofInstruction? h
  · cases rest with
    | nil =>
        simp only [tree?, inputs]
        exact shows_of_unary? first
    | cons b rest =>
        obtain ⟨e, tree, shows⟩ := shows_of_unary? first
        exact ⟨e, by simp [tree?, inputs, tree], shows⟩
  · obtain ⟨e, tree, shows⟩ := shows_of_binary? second
    exact ⟨e, by simp [tree?, inputs, unaryTree?_of_binary? second, tree], shows⟩

end Phrases

section Successions

variable {w : Writer} {t : Table} {kernels : List String} {trees : Handle → Expression}

theorem bind_eq_ok {α β : Type} {x : Outcome α} {f : α → Outcome β} {b : β} :
    x >>= f = .ok b ↔ ∃ a, x = .ok a ∧ f a = .ok b := by
  cases x with
  | ok a => exact ⟨fun h => ⟨a, rfl, h⟩, fun ⟨_, same, h⟩ => Except.ok.inj same ▸ h⟩
  | error e => exact ⟨nofun, fun ⟨_, same, _⟩ => nomatch same⟩

theorem areScalars_eq_true {hs : List Handle} (scalars : Writer.areScalars t hs = .ok true) :
    ∀ h ∈ hs, ∃ v, t.get? h = some v ∧ v.kind.isScalar := by
  induction hs with
  | nil => simp
  | cons h hs ih =>
      obtain ⟨kind, fetched, rest⟩ := bind_eq_ok.mp scalars
      obtain ⟨v, hv, rfl⟩ : ∃ v, t.get? h = some v ∧ v.kind = kind := by
        simpa [Table.fetchKind] using Outcome.toOption_eq_some.mpr fetched
      split at rest
      · next scalar =>
          exact List.forall_mem_cons.mpr ⟨⟨v, hv, scalar⟩, ih rest⟩
      · cases rest

/-- What the writer folds is a phrase on scalars. -/
theorem phrase_of_fold {i : Instruction} {s : ScalarText} (folded : w.fold t i = .ok (some s)) :
    ∃ phrase, Phrase.ofInstruction? i = some phrase ∧ w.phrase t phrase = .ok s ∧
      ∀ h ∈ i.inputs, ∃ v, t.get? h = some v ∧ v.kind.isScalar := by
  obtain ⟨task, -, rest⟩ := bind_eq_ok.mp folded
  split at rest
  · obtain ⟨scalars, all, written⟩ := bind_eq_ok.mp rest
    cases scalars with
    | false => cases written
    | true =>
        cases hp : Phrase.ofInstruction? i with
        | none =>
            rw [hp] at written
            cases written
        | some phrase =>
            rw [hp] at written
            obtain ⟨s', spelled, same⟩ := bind_eq_ok.mp written
            obtain rfl : s' = s := Option.some.inj (Except.ok.inj same)
            exact ⟨phrase, rfl, spelled, areScalars_eq_true all⟩
  · cases rest

theorem isLiteral_eq_false {v : Variable} (name : Identifier.isName v.name) : v.isLiteral = false := by
  have plain : '\x7b' ∉ v.name.toList := not_mem_of_isName name (by decide)
  have other (word : List Char) (hw : '\x7b' ∈ word) : word.isPrefixOf v.name.toList = false := by
    rw [Bool.eq_false_iff]
    exact fun h => plain ((List.isPrefixOf_iff_prefix.mp h).subset hw)
  simp [Variable.isLiteral, LiteralName.body?, other]

/-- A variable whose name brackets the text means what the text spells. -/
theorem means_of_body? {h : Handle} {v : Variable} {e : Expression} {text : String}
    (spells : Spells text (.ofPrecedence v.precedence) e)
    (body : LiteralName.body? v.name = some text.toList) : v.operand = text ∧ Means w h v e := by
  have operand : v.operand = text := by simp [Variable.operand, body]
  have literal : v.isLiteral := by simp [Variable.isLiteral, body]
  exact ⟨operand, fun _ => operand ▸ spells, fun other => absurd literal other⟩

theorem Denotes.means {h : Handle} {v : Variable} {e : Expression} (denotes : Denotes w h v e) :
    Means w h v e := by
  cases denotes with
  | name name reserved inner =>
      have literal := isLiteral_eq_false name
      refine ⟨by simp [literal], fun _ => ⟨name, ?_, ?_⟩⟩
      · rintro same
        simp [same, castWord, Identifier.castWords] at reserved
      · have role : w.role h v ≠ .output := by
          simp only [Writer.role, literal]
          rcases inner with temporary | other
          · simp [temporary]
          · simp [Ne.symm other]
            split <;> simp
        rw [if_neg role]
  | output name reserved lasting output =>
      have literal := isLiteral_eq_false name
      refine ⟨by simp [literal], fun _ => ⟨name, ?_, ?_⟩⟩
      · rintro same
        simp [same, castWord, Identifier.castWords] at reserved
      · have role : w.role h v = .output := by simp [Writer.role, literal, lasting, output]
        rw [if_pos role]
  | integer x =>
      have body : LiteralName.body? (Variable.integerLiteral x).name = some (Word.text x).toList :=
        LiteralName.body?_wrap_integer (spells_word x).line
      exact (means_of_body? (spells_word x) body).2
  | @double x finite =>
      obtain ⟨negative, m, q, decoded⟩ := Binary.decode_of_isFinite finite
      have spells := spells_double decoded
      have sign : Binary.isNegative x = negative := by simp [Binary.isNegative, decoded]
      rw [← sign] at spells
      have body : LiteralName.body? (Variable.doubleLiteral x).name =
          some (NumberText.literal x).toList := LiteralName.body?_wrap_double spells.line
      exact (means_of_body? spells body).2

/-- The instruction is written as its tree, given what its operands mean. -/
theorem spells_fold {i : Instruction} {s : ScalarText} (path : IsPath w.kernels kernels)
    (means : ∀ h v, t.get? h = some v → v.kind.isScalar → Means w h v (trees h))
    (folded : w.fold t i = .ok (some s)) :
    ∃ e, tree? kernels t trees i = some e ∧ Spells s.text (.ofPrecedence s.precedence) e := by
  obtain ⟨phrase, instruction, written, scalars⟩ := phrase_of_fold folded
  obtain ⟨e, tree, shows⟩ := shows_of_ofInstruction? t kernels trees instruction
  have known : ∀ h ∈ phrase.handles, Known w t trees h := fun h hh =>
    (scalars h (Phrase.handles_of_ofInstruction? instruction hh)).imp fun v ⟨hv, scalar⟩ =>
      ⟨hv, means h v hv scalar⟩
  obtain ⟨s', written', spells⟩ := spells_phrase path known shows
  obtain rfl : s' = s := Except.ok.inj (written'.symm.trans written)
  exact ⟨e, tree, spells⟩

/-- A variable folded into a text means what the text spells. -/
theorem means_foldInto {h : Handle} {v : Variable} {s : ScalarText} {e : Expression}
    (spells : Spells s.text (.ofPrecedence s.precedence) e) :
    (v.foldInto s.text s.precedence).operand = s.text ∧
      Means w h (v.foldInto s.text s.precedence) e :=
  means_of_body? spells (v.body?_foldInto spells.line s.precedence)

/-- Every scalar variable of a succession means its tree. -/
theorem Succession.means (path : IsPath w.kernels kernels) (s : Succession w kernels t trees) :
    ∀ h v, t.get? h = some v → v.kind.isScalar → Means w h v (trees h) := by
  induction s with
  | start each => exact fun h v hv scalar => (each h v hv scalar).means
  | @fold t trees i o s e before output folded tree ih =>
      intro h v hv scalar
      rw [Table.get?_modify] at hv
      split at hv
      · next same =>
          obtain ⟨v, hv, rfl⟩ := Option.map_eq_some_iff.mp hv
          obtain ⟨e', tree', spells⟩ := spells_fold path ih folded
          obtain rfl : e = e' := Option.some.inj (tree.symm.trans tree')
          rw [same, Function.update_self]
          exact (means_foldInto spells).2
      · next other =>
          rw [Function.update_of_ne other]
          exact ih h v hv scalar

/-- In a succession of folded instructions, every scalar operand is read as its tree and as nothing
else. An instruction that is folded next has a tree, and the operand that it leaves is read as it. -/
theorem Succession.reads_iff_tree (path : IsPath w.kernels kernels) (s : Succession w kernels t trees) :
    (∀ h v, t.get? h = some v → v.kind.isScalar → ∀ context,
        ∃ text, w.scalar t h context = .ok text ∧ ∀ d, Reads text d ↔ d = trees h) ∧
      ∀ i s, w.fold t i = .ok (some s) → ∃ e, tree? kernels t trees i = some e ∧
        ∀ v d, Reads (Variable.foldInto v s.text s.precedence).operand d ↔ d = e := by
  have means := s.means path
  refine ⟨fun h v hv scalar context => ?_, fun i s folded => ?_⟩
  · obtain ⟨text, written, spells⟩ := spells_scalar hv (means h v hv scalar) context
    exact ⟨text, written, fun d => spells.reads_eq⟩
  · obtain ⟨e, tree, spells⟩ := spells_fold path means folded
    refine ⟨e, tree, fun v d => ?_⟩
    rw [(means_foldInto (w := w) (h := ⟨0⟩) spells).1]
    exact spells.reads_eq

end Successions

section Quotient

/-- An instruction on scalars. -/
def onScalars (p : Primitive) (signature : Signature) (inputs : List Handle) (output : Handle) :
    Instruction where
  primitive := p
  signature := signature
  inputs := inputs
  output := some output
  range := none
  blocks := none
  dimensions := []

/-- A literal, an integer and a double of the user, and two temporaries. -/
def quotientTable : Table where
  entries := #[.integerLiteral (-3), .named "n" .integer, .named "x" .double, .fresh "ti0" .integer,
    .fresh "ts0" .double]
  literals := []

/-- The double is the output. -/
def quotientWriter : Writer := { Writer.standard with output := some ⟨2⟩ }

def quotientTrees (h : Handle) : Expression :=
  match h.index with
  | 0 => .ofInt (-3)
  | 1 => .path ["n"]
  | 2 => .dereference (.path ["x"])
  | 3 => .path ["ti0"]
  | _ => .path ["ts0"]

theorem denotes_quotientTrees {h : Handle} {v : Variable} (hv : quotientTable.get? h = some v) :
    Denotes quotientWriter h v (quotientTrees h) := by
  match h, hv with
  | ⟨0⟩, hv =>
      obtain rfl := Option.some.inj hv
      exact .integer (-3)
  | ⟨1⟩, hv =>
      obtain rfl := Option.some.inj hv
      exact .name (by decide) (by decide) (by decide)
  | ⟨2⟩, hv =>
      obtain rfl := Option.some.inj hv
      exact .output (by decide) (by decide) (by decide) rfl
  | ⟨3⟩, hv =>
      obtain rfl := Option.some.inj hv
      exact .name (by decide) (by decide) (by decide)
  | ⟨4⟩, hv =>
      obtain rfl := Option.some.inj hv
      exact .name (by decide) (by decide) (by decide)
  | ⟨n + 5⟩, hv => cases hv

/-- The integer less the literal, folded. -/
theorem succession_difference :
    Succession quotientWriter ["mateq", "kernels"]
      (quotientTable.modify ⟨3⟩ (·.foldInto "n - -3" Precedence.additive))
      (Function.update quotientTrees ⟨3⟩ (.binary .subtract (.path ["n"]) (.negate (.integer 3)))) :=
  .fold (i := onScalars .subtract .ii [⟨1⟩, ⟨0⟩] ⟨3⟩) (s := ⟨"n - -3", Precedence.additive⟩)
    (.start fun _ _ hv _ => denotes_quotientTrees hv) rfl rfl rfl

theorem reads_differenceQuotient :
    quotientWriter.fold (quotientTable.modify ⟨3⟩ (·.foldInto "n - -3" Precedence.additive))
        (onScalars .divide .ss [⟨3⟩, ⟨2⟩] ⟨4⟩) =
      .ok (some ⟨"((n - -3) as f64) / *x", Precedence.multiplicative⟩) ∧
    ∀ d, Reads "((n - -3) as f64) / *x" d ↔
      d = .binary .divide (.cast (.binary .subtract (.path ["n"]) (.negate (.integer 3))) "f64")
        (.dereference (.path ["x"])) := by
  refine ⟨rfl, fun d => ?_⟩
  obtain ⟨e, tree, read⟩ := (Succession.reads_iff_tree (by decide) succession_difference).2
    (onScalars .divide .ss [⟨3⟩, ⟨2⟩] ⟨4⟩) ⟨"((n - -3) as f64) / *x", Precedence.multiplicative⟩ rfl
  obtain rfl := Option.some.inj tree
  exact read (.fresh "ts0" .double) d

end Quotient

end Grammar
end MatrixCode
