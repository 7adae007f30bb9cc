import MatrixCode.Proofs.Grammar
import MatrixCode.Proofs.Literals
import MatrixCode.Writer.Operand

/-!
Texts of scalar expressions and their tokens. `Spells text level e` says that the text, in whatever
place it is written, is read as the expression, and that its outermost operator has the level. Each
way of putting texts together that the writer has is a rule for it.
-/

namespace MatrixCode

namespace Identifier

/-- The text is one identifier. -/
def isName (text : String) : Bool :=
  match text.toList with
  | [] => false
  | c :: cs => isStart c && cs.all isPart

theorem exists_of_isName {text : String} (h : isName text) :
    ∃ c cs, text.toList = c :: cs ∧ isStart c ∧ ∀ x ∈ cs, isPart x := by
  unfold isName at h
  split at h
  · cases h
  · next c cs same =>
      obtain ⟨start, parts⟩ := Bool.and_eq_true_iff.mp h
      exact ⟨c, cs, same, start, List.all_eq_true.mp parts⟩

theorem toNat_of_isStart {c : Char} (h : isStart c) : 65 ≤ c.toNat ∧ c.toNat ≤ 122 := by
  simp only [isStart, Char.isAlpha, Char.isUpper, Char.isLower, Bool.or_eq_true, Bool.and_eq_true,
    decide_eq_true_eq, UInt32.le_iff_toNat_le, beq_iff_eq] at h
  have : c.toNat = c.val.toNat := rfl
  have : 'A'.val.toNat = 65 := rfl
  have : 'Z'.val.toNat = 90 := rfl
  have : 'a'.val.toNat = 97 := rfl
  have : 'z'.val.toNat = 122 := rfl
  rcases h with (h | h) | rfl
  · omega
  · omega
  · decide

theorem isPart_of_isStart {c : Char} (h : isStart c) : isPart c := by
  simp only [isStart, isPart, Char.isAlphanum, Bool.or_eq_true] at h ⊢
  exact h.imp_left .inl

theorem isPart_of_isDigit {c : Char} (h : c.isDigit) : isPart c := by
  simp [isPart, Char.isAlphanum, h]

end Identifier

namespace Grammar

section Characters

variable {rest : List Char}

theorem isBlank_of_isStart {c : Char} (h : Identifier.isStart c) : Blank.isBlank c = false := by
  have := Identifier.toNat_of_isStart h
  simp [Blank.isBlank, Blank.intervals]
  omega

/-- The characters that a word or a number can go on with. -/
def joins (c : Char) : Bool := Identifier.isPart c || c == '.' || c == '-' || c == '+'

/-- What follows belongs to no word and to no number. -/
def Parted (rest : List Char) : Prop := ∀ c ∈ rest.head?, joins c = false

theorem Parted.isPart (parted : Parted rest) : ∀ c ∈ rest.head?, Identifier.isPart c = false := by
  intro c hc
  have := parted c hc
  simp only [joins, Bool.or_eq_false_iff] at this
  exact this.1.1.1

@[simp] theorem parted_nil : Parted [] := by simp [Parted]

@[simp] theorem parted_cons {c : Char} : Parted (c :: rest) ↔ joins c = false := by
  simp [Parted]

theorem lex_blank (cs : List Char) : lex (' ' :: cs) = lex cs := by
  rw [lex, if_pos (by decide)]
  simp

theorem lex_joint (cs : List Char) : lex (':' :: ':' :: cs) = (lex cs).map (.joint :: ·) := by
  rw [lex]

theorem lex_symbol {c : Char} {s : Token} (known : symbol? c = some s) (other : c ≠ '/')
    (cs : List Char) : lex (c :: cs) = (lex cs).map (s :: ·) := by
  have comment : startsComment (c :: cs) = false := by
    unfold startsComment
    split <;> simp_all
  have special : ['(', ')', ',', '?', '+', '-', '*', '/'].all fun x =>
      !Blank.isBlank x && !Identifier.isStart x && !x.isDigit && x != ':' := by decide
  have member : c ∈ ['(', ')', ',', '?', '+', '-', '*', '/'] := by
    unfold symbol? at known
    split at known <;> simp_all
  have apart := List.all_eq_true.mp special c member
  simp only [Bool.and_eq_true, Bool.not_eq_true', bne_iff_ne, ne_eq] at apart
  obtain ⟨⟨⟨blank, start⟩, digit⟩, colon⟩ := apart
  rw [lex]
  · simp [blank, start, digit, comment, known]
  · exact fun _ same _ => colon same

theorem lex_slash (cs : List Char) : lex ('/' :: ' ' :: cs) = (lex cs).map (.slash :: ·) := by
  rw [lex]
  · simp [show Blank.isBlank '/' = false by decide, show Identifier.isStart '/' = false by decide,
      show '/'.isDigit = false by decide, startsComment, symbol?, lex_blank]
  · simp

theorem span_isPart {ws : List Char} (hw : ∀ c ∈ ws, Identifier.isPart c)
    (hr : ∀ c ∈ rest.head?, Identifier.isPart c = false) :
    (ws ++ rest).takeWhile Identifier.isPart = ws ∧
      (ws ++ rest).dropWhile Identifier.isPart = rest := by
  rw [List.takeWhile_append_of_pos hw, List.dropWhile_append_of_pos hw]
  cases rest with
  | nil => simp
  | cons c rest =>
      have : Identifier.isPart c = false := hr c rfl
      simp [this]

theorem lex_word {word : String} (name : Identifier.isName word)
    (parted : ∀ c ∈ rest.head?, Identifier.isPart c = false) :
    lex (word.toList ++ rest) = (lex rest).map (.word word :: ·) := by
  obtain ⟨c, cs, same, start, parts⟩ := Identifier.exists_of_isName name
  obtain ⟨taken, dropped⟩ := span_isPart parts parted
  have back : String.ofList (c :: cs) = word := by rw [← same, String.ofList_toList]
  rw [same, List.cons_append, lex]
  · simp [isBlank_of_isStart start, start, taken, dropped, back]
  · rintro _ rfl
    cases start

/-- A path goes on where its text goes on. -/
theorem lex_path {words : List String} (nonempty : words ≠ [])
    (names : ∀ w ∈ words, Identifier.isName w) (parted : ∀ c ∈ rest.head?, Identifier.isPart c = false) :
    lex (("::".intercalate words).toList ++ rest) = (lex rest).map (pathTokens words ++ ·) := by
  induction words with
  | nil => contradiction
  | cons word words ih =>
      obtain ⟨first, others⟩ := List.forall_mem_cons.mp names
      cases words with
      | nil =>
          rw [String.intercalate_singleton, lex_word first parted]
          rfl
      | cons next words =>
          rw [String.intercalate_cons_cons, String.toList_append, String.toList_append,
            List.append_assoc, List.append_assoc, lex_word first (by simp [Identifier.isPart])]
          change (lex (':' :: ':' :: (("::".intercalate (next :: words)).toList ++ rest))).map _ = _
          rw [lex_joint, ih (by simp) others]
          cases lex rest <;> rfl

theorem numberTail_of_parted (exponent : Bool) (parted : Parted rest) :
    numberTail exponent rest = ([], rest) := by
  cases rest with
  | nil => rfl
  | cons c rest =>
      have := parted_cons.mp parted
      simp only [joins, Bool.or_eq_false_iff] at this
      rw [numberTail, if_neg]
      simp [this]

theorem numberTail_cons (exponent : Bool) {c : Char} (digit : c.isDigit ∨ c = '.') (cs : List Char) :
    numberTail exponent (c :: cs) = (numberTail false cs).map (c :: ·) id := by
  have inside : (Identifier.isPart c || c == '.') = true := by
    rcases digit with digit | rfl
    · simp [Identifier.isPart_of_isDigit digit]
    · rfl
  have plain : (c == 'e' || c == 'E') = false := by
    by_contra letter
    obtain rfl | rfl : c = 'e' ∨ c = 'E' := by simpa [or_iff_not_imp_left] using letter
    all_goals cases digit <;> contradiction
  rw [numberTail, if_pos (by simp [inside]), plain]

theorem numberTail_digits {ds : List Char} (digits : ∀ c ∈ ds, c.isDigit ∨ c = '.') (cs : List Char) :
    numberTail false (ds ++ cs) = (numberTail false cs).map (ds ++ ·) id := by
  induction ds with
  | nil => rfl
  | cons d ds ih =>
      obtain ⟨first, others⟩ := List.forall_mem_cons.mp digits
      rw [List.cons_append, numberTail_cons false first, ih others]
      rfl

/-- The sign of an exponent belongs to the number. -/
theorem numberTail_exponent (z : Int) (parted : Parted rest) :
    numberTail true ((toString z).toList ++ rest) = ((toString z).toList, rest) := by
  have digits : ∀ c ∈ (Nat.repr z.natAbs).toList, c.isDigit ∨ c = '.' := fun c hc =>
    .inl (Reader.isDigit_of_mem_repr hc)
  have read (ds : List Char) (hd : ∀ c ∈ ds, c.isDigit ∨ c = '.') :
      numberTail false (ds ++ rest) = (ds, rest) := by
    rw [numberTail_digits hd, numberTail_of_parted false parted]
    simp
  rw [NumberText.toString_eq_signed]
  by_cases negative : z < 0
  · simp only [NumberText.signed, negative, decide_true, if_true, String.toList_ofList]
    rw [List.cons_append, numberTail, if_pos (by simp)]
    change (numberTail false _).map _ id = _
    rw [read _ digits]
    rfl
  · simp only [NumberText.signed, negative, decide_false, Bool.false_eq_true, if_false,
      String.toList_ofList]
    obtain ⟨c, cs, same⟩ := List.exists_cons_of_ne_nil (Reader.repr_ne_nil z.natAbs)
    rw [same] at digits ⊢
    obtain ⟨first, others⟩ := List.forall_mem_cons.mp digits
    rw [List.cons_append, numberTail_cons true first, read cs others]
    rfl

theorem lex_number {text : List Char} (numeric : Decimal.Numeric text) (parted : Parted rest) :
    lex (text ++ rest) = (lex rest).map (.number text :: ·) := by
  obtain ⟨⟨c, cs, rfl, digit⟩, mantissa, exponent, same, digits, last⟩ := numeric
  have tail : numberTail false (cs ++ rest) = (cs, rest) := by
    cases mantissa with
    | nil =>
        rcases last with rfl | ⟨z, rfl⟩
        · cases same
        · obtain ⟨rfl, -⟩ := List.cons.inj same
          cases digit
    | cons d ds =>
        rw [List.cons_append, List.cons.injEq] at same
        obtain ⟨rfl, rfl⟩ := same
        rw [List.append_assoc, numberTail_digits (List.forall_mem_cons.mp digits).2]
        rcases last with rfl | ⟨z, rfl⟩
        · simp [numberTail_of_parted false parted]
        · rw [List.cons_append, numberTail, if_pos (by decide)]
          change ((numberTail true _).map _ id).map _ id = _
          rw [numberTail_exponent z parted]
          rfl
  have blank := Decimal.IsNumeral.isBlank_eq_false (.inl digit)
  have start := Identifier.isStart_of_isDigit digit
  rw [List.cons_append, lex]
  · simp [blank, start, digit, tail]
  · rintro _ rfl
    cases digit

end Characters

section Rules

variable {text text' : String} {l m : Level} {e e' : Expression}

/-- The text has the tokens, whatever parted text follows. -/
def Lexed (text : String) (ts : List Token) : Prop :=
  ∀ rest, Parted rest → lex (text.toList ++ rest) = (lex rest).map (ts ++ ·)

/-- Wherever the text is written, it is the expression, with an outermost operator of the level. -/
structure Spells (text : String) (l : Level) (e : Expression) : Prop where
  line : '\n' ∉ text.toList
  tokens : ∃ ts, Lexed text ts ∧ Derives l ts e

theorem Spells.lift (s : Spells text m e) (le : l.rank ≤ m.rank) : Spells text l e :=
  ⟨s.line, s.tokens.imp fun _ ⟨lexed, derived⟩ => ⟨lexed, derived.lift le⟩⟩

theorem Spells.reads (s : Spells text l e) : Reads text e := by
  obtain ⟨ts, lexed, derived⟩ := s.tokens
  refine ⟨ts, ?_, derived.lift (Nat.zero_le _)⟩
  have := lexed [] parted_nil
  rw [List.append_nil] at this
  rw [this, lex]
  simp

theorem Spells.reads_eq (s : Spells text l e) {d : Expression} : Reads text d ↔ d = e :=
  ⟨fun r => r.unique s.reads, fun same => same ▸ s.reads⟩

theorem Lexed.word (name : Identifier.isName text) : Lexed text [.word text] := fun _ parted =>
  lex_word name parted.isPart

theorem not_mem_of_isName (name : Identifier.isName text) {c : Char}
    (other : Identifier.isPart c = false) : c ∉ text.toList := by
  obtain ⟨d, ds, same, start, parts⟩ := Identifier.exists_of_isName name
  rw [same]
  intro hc
  rcases List.mem_cons.mp hc with rfl | hc
  · exact Bool.false_ne_true (other.symm.trans (Identifier.isPart_of_isStart start))
  · exact Bool.false_ne_true (other.symm.trans (parts c hc))

theorem spells_name (name : Identifier.isName text) (reserved : text ≠ castWord) :
    Spells text .primary (.path [text]) := by
  refine ⟨not_mem_of_isName name rfl, _, Lexed.word name, ?_⟩
  exact .path (List.cons_ne_nil text []) (by simpa using reserved.symm)

theorem Spells.group (s : Spells text .sum e) : Spells (Writer.inParentheses text) .primary e := by
  obtain ⟨ts, lexed, derived⟩ := s.tokens
  refine ⟨by simpa [Writer.inParentheses] using s.line, _, fun rest _ => ?_, derived.group⟩
  simp only [Writer.inParentheses, String.toList_append, List.append_assoc]
  change lex ('(' :: (text.toList ++ ')' :: rest)) = _
  rw [lex_symbol rfl (by decide), lexed _ (parted_cons.mpr rfl), lex_symbol rfl (by decide)]
  cases lex rest <;> simp

theorem Spells.negate (s : Spells text .unary e) : Spells ("-" ++ text) .unary (.negate e) := by
  obtain ⟨ts, lexed, derived⟩ := s.tokens
  refine ⟨by simpa using s.line, _, fun rest parted => ?_, derived.negate⟩
  rw [String.toList_append]
  change lex ('-' :: (text.toList ++ rest)) = _
  rw [lex_symbol rfl (by decide), lexed _ parted]
  cases lex rest <;> simp

theorem Spells.dereference (s : Spells text .unary e) :
    Spells ("*" ++ text) .unary (.dereference e) := by
  obtain ⟨ts, lexed, derived⟩ := s.tokens
  refine ⟨by simpa using s.line, _, fun rest parted => ?_, derived.dereference⟩
  rw [String.toList_append]
  change lex ('*' :: (text.toList ++ rest)) = _
  rw [lex_symbol rfl (by decide), lexed _ parted]
  cases lex rest <;> simp

/-- Casts are always written in parentheses. -/
theorem Spells.cast {type : String} (s : Spells text .cast e) (name : Identifier.isName type) :
    Spells (text ++ " as " ++ type) .cast (.cast e type) := by
  obtain ⟨ts, lexed, derived⟩ := s.tokens
  refine ⟨?_, _, fun rest parted => ?_, derived.cast type⟩
  · simpa using ⟨s.line, not_mem_of_isName name rfl⟩
  · have as : lex ("as".toList ++ ' ' :: (type.toList ++ rest)) = _ :=
      lex_word (by decide) (by simp [Identifier.isPart])
    simp only [String.toList_append, List.append_assoc]
    change lex (text.toList ++ ' ' :: ("as".toList ++ ' ' :: (type.toList ++ rest))) = _
    rw [lexed _ (parted_cons.mpr rfl), lex_blank, as, lex_blank, lex_word name parted.isPart]
    cases lex rest <;> simp [castWord]

/-- The sign of an operation. -/
def Operation.sign : Operation → String
  | add => "+"
  | subtract => "-"
  | multiply => "*"
  | divide => "/"

theorem lex_operation (op : Operation) (cs : List Char) :
    lex (op.sign.toList ++ ' ' :: cs) = (lex cs).map (op.token :: ·) := by
  cases op with
  | add | subtract | multiply =>
      simp only [Operation.sign, Operation.token]
      change lex (_ :: ' ' :: cs) = _
      rw [lex_symbol rfl (by decide), lex_blank]
  | divide => exact lex_slash cs

theorem Spells.binary (op : Operation) (s : Spells text op.level e) (s' : Spells text' op.right e') :
    Spells (text ++ " " ++ op.sign ++ " " ++ text') op.level (.binary op e e') := by
  obtain ⟨ts, lexed, derived⟩ := s.tokens
  obtain ⟨us, lexed', derived'⟩ := s'.tokens
  refine ⟨?_, _, fun rest parted => ?_, derived.binary op derived'⟩
  · have : '\n' ∉ op.sign.toList := by cases op <;> decide
    simpa using ⟨s.line, this, s'.line⟩
  · simp only [String.toList_append, List.append_assoc]
    change lex (text.toList ++ ' ' :: (op.sign.toList ++ ' ' :: (text'.toList ++ rest))) = _
    rw [lexed _ (parted_cons.mpr rfl), lex_blank, lex_operation, lexed' _ parted]
    cases lex rest <;> simp

/-- The arguments of a call, one after the other. -/
theorem lexed_arguments {texts : List String} {es : List Expression}
    (each : List.Forall₂ (fun text e => Spells text .sum e) texts es) :
    ∃ args : List (List Token × Expression), args.map (·.2) = es ∧
      Lexed (Writer.commaSeparated texts) (separated (args.map (·.1))) ∧
      ∀ a ∈ args, Derives .sum a.1 a.2 := by
  induction each with
  | nil =>
      refine ⟨[], rfl, fun rest _ => ?_, by simp⟩
      cases h : lex rest <;> simp [Writer.commaSeparated, separated, h]
  | @cons text e texts es first others ih =>
      obtain ⟨ts, lexed, derived⟩ := first.tokens
      obtain ⟨args, rfl, lexed', all⟩ := ih
      refine ⟨(ts, e) :: args, rfl, ?_, List.forall_mem_cons.mpr ⟨derived, all⟩⟩
      cases args with
      | nil =>
          cases others
          simpa [Writer.commaSeparated, separated] using lexed
      | cons b args =>
          obtain - | @⟨text', _, texts, _, _, _⟩ := others
          intro rest parted
          simp only [Writer.commaSeparated, String.intercalate_cons_cons, String.toList_append,
            List.append_assoc, List.map_cons, separated] at lexed' ⊢
          change lex (text.toList ++
            ',' :: ' ' :: ((", ".intercalate (text' :: texts)).toList ++ rest)) = _
          rw [lexed _ (parted_cons.mpr rfl), lex_symbol rfl (by decide), lex_blank,
            lexed' rest parted]
          cases lex rest <;> simp

theorem lines_of_forall₂ {texts : List String} {es : List Expression}
    (each : List.Forall₂ (fun text e => Spells text .sum e) texts es) :
    ∀ text ∈ texts, '\n' ∉ text.toList := by
  induction each with
  | nil => simp
  | cons first _ ih => exact List.forall_mem_cons.mpr ⟨first.line, ih⟩

theorem not_mem_intercalate {c : Char} {separator : String} {texts : List String}
    (hs : c ∉ separator.toList) (ht : ∀ text ∈ texts, c ∉ text.toList) :
    c ∉ (separator.intercalate texts).toList := by
  induction texts with
  | nil => simp
  | cons text texts ih =>
      obtain ⟨first, others⟩ := List.forall_mem_cons.mp ht
      cases texts with
      | nil => simpa using first
      | cons next texts =>
          rw [String.intercalate_cons_cons, String.toList_append, String.toList_append]
          simpa [hs, first] using ih others

/-- The text is a path of words. -/
structure IsPath (text : String) (words : List String) : Prop where
  joined : text = "::".intercalate words
  nonempty : words ≠ []
  names : ∀ word ∈ words, Identifier.isName word
  reserved : castWord ∉ words

instance (text : String) (words : List String) : Decidable (IsPath text words) :=
  decidable_of_iff (text = "::".intercalate words ∧ words ≠ [] ∧
    (∀ word ∈ words, Identifier.isName word) ∧ castWord ∉ words)
    ⟨fun ⟨joined, nonempty, names, reserved⟩ => ⟨joined, nonempty, names, reserved⟩,
      fun ⟨joined, nonempty, names, reserved⟩ => ⟨joined, nonempty, names, reserved⟩⟩

theorem IsPath.spells {words : List String} (path : IsPath text words) :
    Spells text .primary (.path words) := by
  obtain ⟨rfl, nonempty, names, reserved⟩ := path
  refine ⟨?_, _, fun rest parted => ?_, .path nonempty reserved⟩
  · exact not_mem_intercalate (by decide) fun word hw => not_mem_of_isName (names word hw) rfl
  · exact lex_path nonempty names parted.isPart

theorem Spells.call {function : String} {f : Expression} {texts : List String}
    {es : List Expression} (s : Spells function .primary f)
    (each : List.Forall₂ (fun text e => Spells text .sum e) texts es) :
    Spells (Writer.call function texts false) .primary (.call f es) := by
  obtain ⟨ts, lexed, derived⟩ := s.tokens
  obtain ⟨args, rfl, inside, all⟩ := lexed_arguments each
  refine ⟨?_, _, fun rest _ => ?_, derived.call all⟩
  · have inner : '\n' ∉ (", ".intercalate texts).toList :=
      not_mem_intercalate (by decide) (lines_of_forall₂ each)
    simpa [Writer.call, Writer.inParentheses, Writer.commaSeparated, -String.toList_intercalate] using
      ⟨s.line, inner⟩
  · simp only [Writer.call, Writer.inParentheses, String.toList_append, List.append_assoc]
    change lex (function.toList ++ '(' :: ((Writer.commaSeparated texts).toList ++ ')' :: rest)) = _
    rw [lexed _ (parted_cons.mpr rfl), lex_symbol rfl (by decide), inside _ (parted_cons.mpr rfl),
      lex_symbol rfl (by decide)]
    cases lex rest <;> simp

theorem Spells.attempt (s : Spells text .primary e) : Spells (text ++ "?") .primary (.attempt e) := by
  obtain ⟨ts, lexed, derived⟩ := s.tokens
  refine ⟨by simpa using s.line, _, fun rest _ => ?_, derived.attempt⟩
  rw [String.toList_append, List.append_assoc]
  change lex (text.toList ++ '?' :: rest) = _
  rw [lexed _ (parted_cons.mpr rfl), lex_symbol rfl (by decide)]
  cases lex rest <;> simp

end Rules

section Numbers

/-- The level of an expression that is written with the precedence. -/
def Level.ofPrecedence (precedence : Nat) : Level :=
  if precedence ≤ Precedence.additive then .sum
  else if precedence ≤ Precedence.multiplicative then .product
  else if precedence ≤ Precedence.unary then .unary
  else .primary

theorem rank_ofPrecedence (p : Nat) : (Level.ofPrecedence p).rank =
    if p ≤ 1 then 0 else if p ≤ 2 then 1 else if p ≤ 3 then 3 else 4 := by
  unfold Level.ofPrecedence
  rw [apply_ite Level.rank, apply_ite Level.rank, apply_ite Level.rank]
  rfl

theorem rank_ofPrecedence_le {p p' : Nat} (le : p ≤ p') :
    (Level.ofPrecedence p).rank ≤ (Level.ofPrecedence p').rank := by
  rw [rank_ofPrecedence, rank_ofPrecedence]
  split_ifs <;> omega

/-- A number with an optional sign. The sign is an operator. -/
def Expression.signed (negative : Bool) (e : Expression) : Expression :=
  if negative then .negate e else e

def Expression.ofInt (z : Int) : Expression := .signed (z < 0) (.integer z.natAbs)

def Expression.ofDouble (x : Float) : Expression :=
  if Binary.isNegative x then .negate (.real x.abs) else .real x

theorem spells_signed (negative : Bool) {text : List Char} {e : Expression}
    (numeric : Decimal.Numeric text) (read : number? text = some e) :
    Spells (NumberText.signed negative text) (.ofPrecedence (Precedence.ofSign negative))
      (.signed negative e) := by
  have lexed : Lexed (String.ofList text) [.number text] := fun rest parted => by
    rw [String.toList_ofList, lex_number numeric parted]
    rfl
  have line : '\n' ∉ (String.ofList text).toList := by
    rw [String.toList_ofList]
    exact fun h => (numeric.chars h).ne_of_not_isDigit (by decide) (by decide) rfl
  have plain : Spells (String.ofList text) .primary e := ⟨line, _, lexed, .number read⟩
  cases negative with
  | false => exact plain
  | true =>
      have written : NumberText.signed true text = "-" ++ String.ofList text := by
        apply String.toList_inj.mp
        simp [NumberText.signed]
      rw [written]
      exact (plain.lift (by decide)).negate

theorem spells_word (x : Int64) :
    Spells (Word.text x) (.ofPrecedence (Precedence.ofSign (x.toInt < 0))) (.ofInt x.toInt) := by
  rw [Word.text, NumberText.toString_eq_signed]
  exact spells_signed _ (NumberText.numeric_repr _) (by rw [number?, Reader.natural?_repr])

theorem spells_double {x : Float} {negative : Bool} {m : Nat} {q : Int}
    (decoded : Binary.decode x = .finite negative m q) :
    Spells (NumberText.literal x) (.ofPrecedence (Precedence.ofSign negative)) (.ofDouble x) := by
  obtain ⟨text, written, numeric, fractional, read⟩ := NumberText.literal_of_decode decoded
  have number : number? text = some (.real x.abs) := by
    rw [number?, fractional, Binary.abs_of_decode decoded]
    simp [read]
  have same : Expression.ofDouble x = .signed negative (.real x.abs) := by
    cases negative with
    | true => simp [Expression.ofDouble, Expression.signed, Binary.isNegative, decoded]
    | false =>
        have : x.abs = x := by
          rw [Binary.abs_of_decode decoded, Binary.ofMagnitude_of_decode decoded]
        simp [Expression.ofDouble, Expression.signed, Binary.isNegative, decoded, this]
  rw [written, same]
  exact spells_signed negative numeric number

/-- The value of an integer literal, with or without a sign. -/
def Expression.whole? : Expression → Option Int
  | .integer n => some n
  | .negate (.integer n) => some (-n)
  | _ => none

theorem joins_of_isBlank {c : Char} (blank : Blank.isBlank c) : joins c = false := by
  by_contra h
  have : c.isDigit ∨ Identifier.isStart c ∨ c ∈ ['.', '-', '+'] := by
    simp only [joins, Identifier.isPart, Identifier.isStart, Char.isAlphanum, Bool.not_eq_false,
      Bool.or_eq_true, beq_iff_eq] at h ⊢
    simp only [List.mem_cons, List.not_mem_nil, or_false]
    tauto
  rcases this with digit | start | sign
  · exact Bool.false_ne_true ((Decimal.IsNumeral.isBlank_eq_false (.inl digit)).symm.trans blank)
  · exact Bool.false_ne_true ((isBlank_of_isStart start).symm.trans blank)
  · simp only [List.mem_cons, List.not_mem_nil, or_false] at sign
    rcases sign with rfl | rfl | rfl <;> cases blank

theorem lex_blanks {bs : List Char} (blank : ∀ c ∈ bs, Blank.isBlank c) (cs : List Char) :
    lex (bs ++ cs) = lex cs := by
  induction bs with
  | nil => rfl
  | cons b bs ih =>
      obtain ⟨first, others⟩ := List.forall_mem_cons.mp blank
      rw [List.cons_append, lex, if_pos first, ih others]
      rintro _ rfl
      cases first

/-- Trimming takes away blanks only. -/
theorem exists_trim (cs : List Char) : ∃ bs bs', cs = bs ++ Blank.trim cs ++ bs' ∧
    (∀ c ∈ bs, Blank.isBlank c) ∧ ∀ c ∈ bs', Blank.isBlank c := by
  let left := cs.takeWhile Blank.isBlank
  let right := (Blank.trimLeft cs).reverse.takeWhile Blank.isBlank
  have ends : Blank.trim cs ++ right.reverse = Blank.trimLeft cs := by
    rw [Blank.trim, ← List.reverse_append, Blank.trimLeft, List.takeWhile_append_dropWhile,
      List.reverse_reverse]
  refine ⟨left, right.reverse, ?_, fun c => List.mem_takeWhile_imp, fun c hc => ?_⟩
  · rw [List.append_assoc, ends]
    exact (List.takeWhile_append_dropWhile ..).symm
  · exact List.mem_takeWhile_imp (List.mem_reverse.mp hc)

theorem toInt_of_ofInt? {z : Int} {x : Int64} (h : Word.ofInt? z = some x) : x.toInt = z := by
  rw [Word.ofInt?, Option.ite_none_right_eq_some, Option.some.injEq] at h
  obtain ⟨⟨lower, upper⟩, rfl⟩ := h
  exact Int64.toInt_ofInt_of_le lower (Int.lt_add_one_of_le upper)

theorem number?_of_natural? {cs : List Char} {n : Nat} (h : Reader.natural? cs = some n) :
    number? cs = some (.integer n) ∧ Decimal.Numeric cs := by
  refine ⟨by rw [number?, h], ?_⟩
  rw [Reader.natural?, Option.ite_none_right_eq_some] at h
  obtain ⟨⟨nonempty, digits⟩, -⟩ := h
  have digit (c : Char) (hc : c ∈ cs) : c.isDigit := List.all_eq_true.mp digits c hc
  obtain ⟨c, rest, rfl⟩ := List.exists_cons_of_ne_nil nonempty
  exact Decimal.numeric_of_digits ⟨c, rest, rfl, digit c (by simp)⟩ fun x hx => .inl (digit x hx)

theorem sign_cases (cs : List Char) :
    (∃ ds, cs = '-' :: ds ∧ Reader.sign cs = (true, ds)) ∨
      (∃ ds, cs = '+' :: ds ∧ Reader.sign cs = (false, ds)) ∨ Reader.sign cs = (false, cs) := by
  unfold Reader.sign
  split
  · exact .inl ⟨_, rfl, rfl⟩
  · exact .inr (.inl ⟨_, rfl, rfl⟩)
  · exact .inr (.inr rfl)

/-- What reads as an integer is a natural number with an optional sign. -/
theorem integer?_eq_some {cs : List Char} {z : Int} (h : Reader.integer? cs = some z) :
    ∃ ds n, Reader.natural? ds = some n ∧
      (cs = ds ∧ z = n ∨ cs = '-' :: ds ∧ z = -n ∨ cs = '+' :: ds ∧ z = n) := by
  rcases sign_cases cs with ⟨ds, rfl, sign⟩ | ⟨ds, rfl, sign⟩ | sign
  · obtain ⟨n, natural, rfl⟩ : ∃ n, Reader.natural? ds = some n ∧ -(n : Int) = z := by
      simpa [Reader.integer?, sign, Option.bind_eq_some_iff] using h
    exact ⟨ds, n, natural, .inr (.inl ⟨rfl, rfl⟩)⟩
  · obtain ⟨n, natural, rfl⟩ : ∃ n, Reader.natural? ds = some n ∧ (n : Int) = z := by
      simpa [Reader.integer?, sign, Option.bind_eq_some_iff] using h
    exact ⟨ds, n, natural, .inr (.inr ⟨rfl, rfl⟩)⟩
  · obtain ⟨n, natural, rfl⟩ : ∃ n, Reader.natural? cs = some n ∧ (n : Int) = z := by
      simpa [Reader.integer?, sign, Option.bind_eq_some_iff] using h
    exact ⟨cs, n, natural, .inl ⟨rfl, rfl⟩⟩

/-- Where an operand reads as a word, its expression is the integer. -/
theorem whole?_of_word? {text : String} {e : Expression} {x : Int64} (reads : Reads text e)
    (word : Reader.word? (Blank.trim text.toList) = some x) : e.whole? = some x.toInt := by
  obtain ⟨bs, bs', same, before, after⟩ := exists_trim text.toList
  obtain ⟨z, integer, ranged⟩ := Option.bind_eq_some_iff.mp word
  obtain ⟨ds, n, natural, written⟩ := integer?_eq_some integer
  obtain ⟨number, numeric⟩ := number?_of_natural? natural
  have parted : Parted bs' := fun c hc => joins_of_isBlank (after c (List.mem_of_mem_head? hc))
  have digits : lex (ds ++ bs') = some [.number ds] := by
    have last : lex bs' = some [] := by
      rw [← List.append_nil bs', lex_blanks after, lex]
    rw [lex_number numeric parted, last]
    rfl
  have leaf : Derives .primary [.number ds] (.integer n) := .number number
  obtain ⟨ts, lexed, derived⟩ := reads
  rw [same, List.append_assoc, lex_blanks before] at lexed
  rw [toInt_of_ofInt? ranged]
  rcases written with ⟨core, rfl⟩ | ⟨core, rfl⟩ | ⟨core, rfl⟩
  · rw [core, digits] at lexed
    obtain rfl := Option.some.inj lexed
    rw [derived.unique (leaf.lift (by decide))]
    rfl
  · rw [core, List.cons_append, lex_symbol rfl (by decide), digits] at lexed
    obtain rfl := Option.some.inj lexed
    rw [derived.unique ((leaf.lift (by decide)).negate.lift (by decide))]
    rfl
  · -- no expression starts with a plus sign
    rw [core, List.cons_append, lex_symbol rfl (by decide), digits] at lexed
    obtain rfl := Option.some.inj lexed
    refine absurd (derived.found.gives [] (by simp)) fun read => read.ne_none fun depth => ?_
    cases depth <;> rfl

end Numbers

end Grammar
end MatrixCode
