import MatrixCode.Proofs.Consistency
import MatrixCode.Proofs.Names
import MatrixCode.Proofs.Symbolic

/-!
Texts that read as whole numbers. Folding computes with them, so they have to stand for numbers: in a
table where only integer literals have such texts, a text that an instruction is folded into reads as
a number only if the operands are numbers, and then it is the value of the instruction.
-/

namespace MatrixCode

open Grammar (bind_eq_ok scalar_eq_of_isLiteral scalar_eq_of_output scalar_eq_name)

namespace Reader

/-- The whole number that a text reads as, with blanks around it or not. -/
def whole? (text : String) : Option Int := integer? (Blank.trim text.toList)

theorem whole?_eq_some {text : String} {z : Int} (h : whole? text = some z) :
    ∃ bs sign ds bs', text.toList = bs ++ sign ++ ds ++ bs' ∧ (∀ c ∈ bs, Blank.isBlank c) ∧
      (∀ c ∈ bs', Blank.isBlank c) ∧ sign ∈ [[], ['-'], ['+']] ∧ ds ≠ [] ∧ ∀ c ∈ ds, c.isDigit := by
  obtain ⟨bs, bs', same, before, after⟩ := Grammar.exists_trim text.toList
  obtain ⟨ds, n, natural, written⟩ := Grammar.integer?_eq_some h
  rw [natural?, Option.ite_none_right_eq_some] at natural
  obtain ⟨⟨nonempty, digits⟩, -⟩ := natural
  have digit : ∀ c ∈ ds, c.isDigit := List.all_eq_true.mp digits
  rcases written with ⟨whole, -⟩ | ⟨whole, -⟩ | ⟨whole, -⟩
  · exact ⟨bs, [], ds, bs', by rw [same, whole]; simp, before, after, by simp, nonempty, digit⟩
  · exact ⟨bs, ['-'], ds, bs', by rw [same, whole]; simp, before, after, by simp, nonempty, digit⟩
  · exact ⟨bs, ['+'], ds, bs', by rw [same, whole]; simp, before, after, by simp, nonempty, digit⟩

/-- A whole number has digits, and no other characters but blanks and a sign. -/
theorem whole?_eq_none {text : String} {c : Char} (hc : c ∈ text.toList)
    (other : Blank.isBlank c = false ∧ c.isDigit = false ∧ c ≠ '-' ∧ c ≠ '+') : whole? text = none := by
  rw [Option.eq_none_iff_forall_ne_some]
  intro z hz
  obtain ⟨bs, sign, ds, bs', same, before, after, signs, -, digits⟩ := whole?_eq_some hz
  obtain ⟨blank, digit, minus, plus⟩ := other
  simp only [same, List.mem_append] at hc
  rcases hc with ((hc | hc) | hc) | hc
  · simp [before c hc] at blank
  · simp only [List.mem_cons, List.not_mem_nil, or_false] at signs
    rcases signs with rfl | rfl | rfl <;> simp_all
  · simp [digits c hc] at digit
  · simp [after c hc] at blank

/-- No whole number has a blank after its sign. -/
theorem whole?_spaced (left right : String) (sign : Char) (hs : sign ∈ ['+', '-', '*', '/']) :
    whole? (left ++ " " ++ String.singleton sign ++ " " ++ right) = none := by
  rw [Option.eq_none_iff_forall_ne_some]
  intro z hz
  obtain ⟨bs, found, ds, bs', same, before, after, signs, nonempty, digits⟩ := whole?_eq_some hz
  have plain : Blank.isBlank sign = false ∧ sign.isDigit = false := by
    simp only [List.mem_cons, List.not_mem_nil, or_false] at hs
    rcases hs with rfl | rfl | rfl | rfl <;> decide
  have outside : sign ∉ bs ∧ sign ∉ ds ++ bs' := by
    refine ⟨fun hm => ?_, fun hm => ?_⟩
    · simp [before sign hm] at plain
    · rcases List.mem_append.mp hm with hm | hm
      · simp [digits sign hm] at plain
      · simp [after sign hm] at plain
  have chars : left.toList ++ [' '] ++ sign :: (' ' :: right.toList) = bs ++ found ++ (ds ++ bs') := by
    simpa [String.toList_append, List.append_assoc] using same
  have inside : sign ∈ bs ++ found ++ (ds ++ bs') := by
    rw [← chars]
    simp
  -- the sign is the one that was found, and a digit comes next
  simp only [List.mem_append, outside.1, false_or] at inside
  have mem : sign ∈ found := inside.resolve_right fun hm => outside.2 (List.mem_append.mpr hm)
  obtain rfl : found = [sign] := by
    simp only [List.mem_cons, List.not_mem_nil, or_false] at signs
    rcases signs with rfl | rfl | rfl <;> simp_all
  have placed : bs ++ sign :: (ds ++ bs') = (left.toList ++ [' ']) ++ sign :: ' ' :: right.toList := by
    simpa using chars.symm
  obtain ⟨-, -, next⟩ := (List.append_cons_inj_of_notMem outside.1 outside.2).mp placed
  obtain ⟨d, rest, rfl⟩ := List.exists_cons_of_ne_nil nonempty
  obtain ⟨rfl, -⟩ := List.cons.inj next
  exact absurd (digits ' ' (by simp)) (by decide)

theorem whole?_between (op : Grammar.Operation) (left right : String) :
    whole? (left ++ " " ++ op.sign ++ " " ++ right) = none := by
  cases op with
  | add => exact whole?_spaced left right '+' (by simp)
  | subtract => exact whole?_spaced left right '-' (by simp)
  | multiply => exact whole?_spaced left right '*' (by simp)
  | divide => exact whole?_spaced left right '/' (by simp)

/-- Digits with blanks behind them are a whole number. -/
theorem whole?_of_digits {ds bs : List Char} (nonempty : ds ≠ []) (digits : ∀ c ∈ ds, c.isDigit)
    (blanks : ∀ c ∈ bs, Blank.isBlank c) : (integer? (Blank.trim (ds ++ bs))).isSome := by
  have plain (c : Char) (hc : c ∈ ds) : Blank.isBlank c = false :=
    Decimal.IsNumeral.isBlank_eq_false (.inl (digits c hc))
  have left (cs cs' : List Char) (hn : cs ≠ []) (hc : ∀ c ∈ cs, Blank.isBlank c = false) :
      Blank.trimLeft (cs ++ cs') = cs ++ cs' := by
    obtain ⟨c, rest, rfl⟩ := List.exists_cons_of_ne_nil hn
    simp [Blank.trimLeft, hc c]
  have trimmed : Blank.trim (ds ++ bs) = ds := by
    have right := left ds.reverse [] (by simpa using nonempty) (by simpa using plain)
    rw [List.append_nil] at right
    rw [Blank.trim, left ds bs nonempty plain, List.reverse_append, Blank.trimLeft,
      List.dropWhile_append_of_pos (by simpa using blanks), ← Blank.trimLeft, right,
      List.reverse_reverse]
  have natural : natural? ds = some (digitsValue ds) := by
    rw [natural?, if_pos ⟨nonempty, List.all_eq_true.mpr digits⟩]
  rw [trimmed, integer?, sign_of_isDigit fun c hc => digits c (List.mem_of_mem_head? hc)]
  simp [natural]

/-- What stands behind the sign of a whole number is a whole number. -/
theorem whole?_of_negated {text : String} {z : Int} (h : whole? ("-" ++ text) = some z) :
    (whole? text).isSome := by
  obtain ⟨bs, sign, ds, bs', same, before, after, signs, nonempty, digits⟩ := whole?_eq_some h
  rw [String.toList_append] at same
  change '-' :: text.toList = _ at same
  obtain rfl : bs = [] := by
    cases bs with
    | nil => rfl
    | cons c bs =>
        obtain ⟨rfl, -⟩ := List.cons.inj same
        exact absurd (before '-' (by simp)) (by decide)
  obtain ⟨d, rest, rfl⟩ := List.exists_cons_of_ne_nil nonempty
  simp only [List.mem_cons, List.not_mem_nil, or_false] at signs
  rcases signs with rfl | rfl | rfl
  · obtain ⟨rfl, -⟩ := List.cons.inj same
    exact absurd (digits '-' (by simp)) (by decide)
  · obtain ⟨-, behind⟩ := List.cons.inj same
    rw [whole?, behind]
    exact whole?_of_digits nonempty digits after
  · simp at same

end Reader

/-- The value of an integer literal is what its text reads as. -/
theorem Variable.literalInteger?_eq {v : Variable} (kind : v.kind = .integer) (literal : v.isLiteral) :
    v.literalInteger? = (Reader.whole? v.operand).bind Word.ofInt? := by
  obtain ⟨body, hb⟩ := Option.isSome_iff_exists.mp literal
  rw [literalInteger?, if_pos kind, hb, operand_of_body? (by rw [hb, String.toList_ofList]),
    Reader.whole?, String.toList_ofList]
  rfl

theorem Variable.kind_of_literalInteger? {v : Variable} {n : Int64} (h : v.literalInteger? = some n) :
    v.kind = .integer := by
  by_contra other
  simp [literalInteger?, other] at h

theorem Variable.whole?_of_literalInteger? {v : Variable} {n : Int64}
    (h : v.literalInteger? = some n) : Reader.whole? v.operand = some n.toInt := by
  obtain ⟨literal, -⟩ := isLiteral_of_integer h
  rw [literalInteger?_eq (kind_of_literalInteger? h) literal] at h
  obtain ⟨z, whole, ranged⟩ := Option.bind_eq_some_iff.mp h
  rw [whole, Grammar.toInt_of_ofInt? ranged]

/-- Of the integers of the user, only literals have texts that read as whole numbers. -/
def Table.NumeralsLiteral (t : Table) : Prop :=
  ∀ h v, t.get? h = some v → v.temporary = false → v.kind = .integer →
    (Reader.whole? v.operand).isSome → v.literalInteger?.isSome

namespace Table.NumeralsLiteral

variable {t : Table} {h : Handle} {v : Variable} {z : Int}

theorem of_entries (all : ∀ v ∈ t.entries.toList, v.temporary = false → v.kind = .integer →
    (Reader.whole? v.operand).isSome → v.literalInteger?.isSome) : t.NumeralsLiteral :=
  fun _ v hv => all v (Array.mem_toList_iff.mpr (Array.mem_of_getElem? hv))

theorem number (numerals : t.NumeralsLiteral) (hv : t.get? h = some v) (user : v.temporary = false)
    (kind : v.kind = .integer) (whole : Reader.whole? v.operand = some z) :
    ∃ n, t.literalInteger? h = some n ∧ n.toInt = z := by
  obtain ⟨n, hn⟩ := Option.isSome_iff_exists.mp (numerals h v hv user kind (by simp [whole]))
  refine ⟨n, ?_, ?_⟩
  · simp [Table.literalInteger?, Table.appearance?, hv, Variable.appearance, hn]
  · exact Option.some.inj ((Variable.whole?_of_literalInteger? hn).symm.trans whole)

/-- An operand is written as a whole number only if it is one. -/
theorem of_scalar (numerals : t.NumeralsLiteral) (hv : t.get? h = some v) (user : v.temporary = false)
    (kind : v.kind = .integer) {w : Writer} {context : Nat} {text : String}
    (written : w.scalar t h context = .ok text) (whole : Reader.whole? text = some z) :
    ∃ n, t.literalInteger? h = some n ∧ n.toInt = z := by
  have starred (text : String) (hm : '*' ∈ text.toList) : Reader.whole? text ≠ some z := by
    rw [Reader.whole?_eq_none hm (by decide)]
    simp
  have grouped (text : String) : Reader.whole? (Writer.inParentheses text) ≠ some z := by
    have paren : '(' ∈ (Writer.inParentheses text).toList := by simp [Writer.inParentheses]
    rw [Reader.whole?_eq_none paren (by decide)]
    simp
  by_cases literal : v.isLiteral
  · rw [scalar_eq_of_isLiteral hv literal, Except.ok.injEq] at written
    subst written
    unfold Variable.operandIn at whole
    split at whole
    · exact absurd whole (grouped v.operand)
    · exact numerals.number hv user kind whole
  · by_cases role : w.role h v = .output
    · rw [scalar_eq_of_output hv role, Except.ok.injEq] at written
      subst written
      split at whole
      · exact absurd whole (grouped _)
      · exact absurd whole (starred _ (by simp))
    · rw [scalar_eq_name hv literal role, Except.ok.injEq] at written
      subst written
      refine numerals.number hv user kind ?_
      rwa [Variable.operand_of_isLiteral_eq_false (by simpa using literal)]

end Table.NumeralsLiteral

namespace Form

theorem integer_of_unary? {p : Primitive} {kind : Kind} {form : Form} (h : unary? p kind = some form)
    (integer : form.kind = .integer) : kind = .integer ∧ form.signature = .i ∧
      form.primitive ∈ [.negate, .abs, .maximum, .minimum, .reseed] := by
  unfold unary? at h
  split at h <;> cases h <;> cases integer <;> simp

theorem integer_of_binary? {p : Primitive} {left right : Kind} {form : Form}
    (h : binary? p left right = some form) (integer : form.kind = .integer) :
    form.signature = .ii ∧ form.primitive ∈ [.add, .subtract, .multiply, .divide] := by
  obtain ⟨signature, -, h⟩ := Option.bind_eq_some_iff.mp h
  split at h <;> cases h <;> cases integer <;> simp

end Form

namespace Phrase

variable {a b : Handle} {p : Primitive} {wide : Bool}

theorem negate_of_unary? (integer : p ∈ [.negate, .abs, .maximum, .minimum, .reseed])
    (h : unary? a p .i = some (.negation wide b)) : p = .negate ∧ wide = false ∧ a = b := by
  simp only [List.mem_cons, List.not_mem_nil, or_false] at integer
  rcases integer with rfl | rfl | rfl | rfl | rfl <;> simp_all [unary?]

theorem extreme_of_unary? (integer : p ∈ [.negate, .abs, .maximum, .minimum, .reseed])
    (h : unary? a p .i = some (.alone wide b)) :
    [.maximum, .minimum].contains p ∧ wide = false ∧ a = b := by
  simp only [List.mem_cons, List.not_mem_nil, or_false] at integer
  rcases integer with rfl | rfl | rfl | rfl | rfl <;> simp_all [unary?]

end Phrase

namespace Writer

variable {w : Writer} {t : Table} {i : Instruction} {o : Handle} {e : ScalarText} {z : Int}

/-- A phrase is a whole number only as the negation of one, or as an operand that stands alone. -/
theorem whole_of_phrase {kernels : List String} {trees : Handle → Grammar.Expression}
    {phrase : Phrase} {tree : Grammar.Expression} (shows : Grammar.Shows kernels t trees phrase tree)
    (written : w.phrase t phrase = .ok e) (whole : Reader.whole? e.text = some z) :
    (∃ wide a text, phrase = .negation wide a ∧ w.operand t wide a Precedence.atom = .ok text ∧
        (Reader.whole? text).isSome) ∨
      ∃ wide a, phrase = .alone wide a ∧ w.operand t wide a Precedence.atom = .ok e.text := by
  have called (function : String) (texts : List String) (fallible : Bool) :
      Reader.whole? (call function texts fallible) ≠ some z := by
    have paren : '(' ∈ (call function texts fallible).toList := by simp [call, inParentheses]
    rw [Reader.whole?_eq_none paren (by decide)]
    simp
  cases shows with
  | between op wide a b =>
      obtain ⟨text, -, written⟩ := bind_eq_ok.mp written
      obtain ⟨text', -, same⟩ := bind_eq_ok.mp written
      obtain rfl := Except.ok.inj same
      cases (Reader.whole?_between op text text').symm.trans whole
  | negation wide a =>
      obtain ⟨text, operand, same⟩ := bind_eq_ok.mp written
      obtain rfl := Except.ok.inj same
      exact .inl ⟨wide, a, text, rfl, operand, Reader.whole?_of_negated whole⟩
  | alone wide a =>
      obtain ⟨text, operand, same⟩ := bind_eq_ok.mp written
      obtain rfl := Except.ok.inj same
      exact .inr ⟨wide, a, rfl, operand⟩
  | reciprocal a =>
      obtain ⟨text, -, same⟩ := bind_eq_ok.mp written
      obtain rfl := Except.ok.inj same
      have slash : '/' ∈ ("1.0 / " ++ text).toList := by simp
      cases (Reader.whole?_eq_none slash (by decide)).symm.trans whole
  | integerQuotient a b =>
      obtain ⟨text, -, written⟩ := bind_eq_ok.mp written
      obtain ⟨text', -, same⟩ := bind_eq_ok.mp written
      obtain rfl := Except.ok.inj same
      exact absurd whole (called _ _ _)
  | integerAbs a | library word reserved a | function path arguments =>
      obtain ⟨_, -, same⟩ := bind_eq_ok.mp written
      obtain rfl := Except.ok.inj same
      exact absurd whole (called _ _ _)

/-- An instruction whose expression is a whole number negates one, or hands one on. -/
theorem whole_of_fold (numerals : t.NumeralsLiteral) (fits : i.Fits t) (computes : i.Computes t o)
    (other : i.primitive ≠ .copy) (kind : t.kind? o = some .integer)
    (users : ∀ k ∈ i.inputs, ∃ v, t.get? k = some v ∧ v.temporary = false)
    (folded : w.fold t i = .ok (some e)) (whole : Reader.whole? e.text = some z) :
    ∃ a n, i.inputs = [a] ∧ t.literalInteger? a = some n ∧ i.signature = .i ∧
      (i.primitive = .negate ∨ [.maximum, .minimum].contains i.primitive ∧ n.toInt = z) := by
  obtain ⟨phrase, instruction, written, -⟩ := Grammar.phrase_of_fold folded
  obtain ⟨_, -, shows⟩ := Grammar.shows_of_ofInstruction? t [] (fun _ => .path []) instruction
  have shape := whole_of_phrase shows written whole
  cases fits with
  | @unary p a o' left form ha found hw =>
      obtain rfl : o' = o := Option.some.inj computes.output
      obtain ⟨v, hv, user⟩ := users a (by simp)
      obtain ⟨rfl, signature, primitive⟩ :=
        Form.integer_of_unary? found (Option.some.inj (hw.symm.trans kind))
      have integer : v.kind = .integer := by simpa [Table.kind?, hv] using ha
      simp only [Phrase.ofInstruction?, signature] at instruction
      rcases shape with ⟨wide, a', text, rfl, operand, digits⟩ | ⟨wide, a', rfl, operand⟩
      · obtain ⟨negate, rfl, rfl⟩ := Phrase.negate_of_unary? primitive instruction
        obtain ⟨y, digits⟩ := Option.isSome_iff_exists.mp digits
        obtain ⟨n, number, -⟩ := numerals.of_scalar hv user integer operand digits
        exact ⟨a, n, rfl, number, signature, .inl negate⟩
      · obtain ⟨extreme, rfl, rfl⟩ := Phrase.extreme_of_unary? primitive instruction
        obtain ⟨n, number, value⟩ := numerals.of_scalar hv user integer operand whole
        exact ⟨a, n, rfl, number, signature, .inr ⟨extreme, value⟩⟩
  | @binary p a b o' left right form ha hb found hw =>
      obtain rfl : o' = o := Option.some.inj computes.output
      obtain ⟨signature, primitive⟩ :=
        Form.integer_of_binary? found (Option.some.inj (hw.symm.trans kind))
      simp only [Phrase.ofInstruction?, signature] at instruction
      simp only [List.mem_cons, List.not_mem_nil, or_false] at primitive
      -- neither shape is the phrase of an operation on two integers
      rcases shape with ⟨wide, a', text, rfl, -⟩ | ⟨wide, a', rfl, -⟩ <;>
        rcases primitive with same | same | same | same <;> rw [same] at instruction <;>
        cases instruction
  | assemble items hw => cases computes.blocks
  | extract ha selects hw => cases computes.range
  | element ha count integers hw =>
      obtain rfl := Option.some.inj computes.output
      cases hw.symm.trans kind
  | copy hs ht found => exact absurd (Form.primitive_of_copy? found) other
  | copyRange hs ht found selects => cases computes.range

end Writer

/-- A variable that was folded reads as a whole number only if its text does. -/
theorem Variable.whole?_foldInto {v : Variable} {text : String} {precedence : Nat} {z : Int}
    (whole : Reader.whole? (v.foldInto text precedence).operand = some z) :
    (v.foldInto text precedence).isLiteral ∧ Reader.whole? text = some z := by
  by_cases line : '\n' ∈ text.toList
  · have plain : (v.foldInto text precedence).isLiteral = false := by
      simp only [isLiteral, foldInto, LiteralName.body?, LiteralName.toList_wrap]
      split <;> simp [List.isPrefixOf, LiteralName.beforeBrace, line]
    rw [operand_of_isLiteral_eq_false plain] at whole
    have brace : '\x7b' ∈ (v.foldInto text precedence).name.toList := by
      simp [foldInto, LiteralName.toList_wrap]
    cases (Reader.whole?_eq_none brace (by decide)).symm.trans whole
  · rw [v.operand_foldInto line] at whole
    exact ⟨by simp [isLiteral, v.body?_foldInto line], whole⟩

namespace Folding

variable {policy : Policy} {w : Writer} {t : Table} {i : Instruction} {o : Handle} {e : ScalarText}

/-- An instruction that is folded into a whole number is on numbers, and has this value. -/
theorem Folds.number (folds : Folds policy w.fold t i o e) (numerals : t.NumeralsLiteral)
    (fits : i.Fits t) (computes : i.Computes t o) (other : i.primitive ≠ .copy)
    (users : ∀ k ∈ i.inputs, ∃ v, t.get? k = some v ∧ v.temporary = false) {v : Variable}
    (hv : t.get? o = some v) (kind : v.kind = .integer) {z : Int}
    (whole : Reader.whole? (v.foldInto e.text e.precedence).operand = some z) :
    ∃ words n, i.inputs.mapM t.literalInteger? = some words ∧ i.number? words = some n ∧
      n.toInt = z := by
  have written (folded : w.fold t i = .ok (some e)) :=
    w.whole_of_fold numerals fits computes other (by simp [Table.kind?, hv, kind]) users folded
      (Variable.whole?_foldInto whole).2
  have expression := Outcome.toOption_eq_some.mp folds.expression
  have literals := toOption_literals? fun _ => folds.covered.input
  rw [expression?] at expression
  split at expression
  · next closed =>
      obtain ⟨found, read, expression⟩ := bind_eq_ok.mp expression
      rw [read] at literals
      obtain rfl := Option.some.inj literals
      split at expression
      · next words mapped =>
          obtain ⟨n, value, rfl⟩ := Option.map_eq_some_iff.mp (Except.ok.inj expression)
          have looks := Variable.appearance_foldInto (x := .integer n) kind rfl
          rw [Variable.whole?_of_literalInteger? (congrArg Appearance.integer? looks)] at whole
          refine ⟨words, n, mapped, ?_, Option.some.inj whole⟩
          rw [Instruction.number?, if_pos (by simp [closed]), value]
      · next mapped =>
          obtain ⟨a, n, inputs, number, -, -⟩ := written expression
          simp [inputs, number] at mapped
  · next closed =>
      obtain ⟨a, n, inputs, number, signature, negate | ⟨extreme, value⟩⟩ := written expression
      · exact absurd (by simp [isClosed, negate, signature]) closed
      · refine ⟨[n], n, by simp [inputs, number], ?_, value⟩
        rw [Instruction.number?, if_pos (by simp only [signature, extreme, decide_true, Bool.and_true,
          Bool.or_true])]
        simp only [List.contains_iff_mem, List.mem_cons, List.not_mem_nil, or_false] at extreme
        rcases extreme with maximum | minimum
        · rw [maximum]
          rfl
        · rw [minimum]
          rfl

/-- Folding leaves no text but that of a literal to read as a whole number. -/
theorem Folds.numeralsLiteral (folds : Folds policy w.fold t i o e) (numerals : t.NumeralsLiteral)
    (fits : i.Fits t) (computes : i.Computes t o) (other : i.primitive ≠ .copy)
    (users : ∀ k ∈ i.inputs, ∃ v, t.get? k = some v ∧ v.temporary = false) :
    (t.modify o (·.foldInto e.text e.precedence)).NumeralsLiteral := by
  intro h v hv user kind whole
  rw [Table.get?_modify] at hv
  split at hv
  · next same =>
      subst same
      obtain ⟨v, found, rfl⟩ := Option.map_eq_some_iff.mp hv
      obtain ⟨z, hz⟩ := Option.isSome_iff_exists.mp whole
      obtain ⟨words, n, -, -, value⟩ := folds.number numerals fits computes other users found kind hz
      rw [Variable.literalInteger?_eq kind (Variable.whole?_foldInto hz).1, hz, Option.bind_some, ← value,
        Word.ofInt?, if_pos ⟨n.le_toInt, n.toInt_le⟩]
      rfl
  · exact numerals h v hv user kind whole

end Folding

/-- After folding by writing, texts that read as whole numbers are still those of literals. -/
theorem Shortens.numeralsLiteral {policy : Policy} {w : Writer} {t t' : Table}
    {is is' : List Instruction} (r : Shortens (Folding.Folds policy w.fold) t is is' t')
    (fits : ∀ i ∈ is, i.Fits t) (computes : ∀ i ∈ is, i.primitive ≠ .copy)
    (plain : ∀ i ∈ is, ∀ k ∈ i.inputs, ∀ v, t.get? k = some v → v.temporary = true →
      v.constant = false)
    (numerals : t.NumeralsLiteral) : t'.NumeralsLiteral := by
  induction r with
  | nil _ => exact numerals
  | keep i rest ih =>
      exact ih (fun j hj => fits j (.tail i hj)) (fun j hj => computes j (.tail i hj))
        (fun j hj => plain j (.tail i hj)) numerals
  | @fold t t' is is' i o e written folds rest ih =>
      have head := List.mem_cons_self (a := i) (l := is)
      have users (k : Handle) (hk : k ∈ i.inputs) : ∃ v, t.get? k = some v ∧ v.temporary = false := by
        obtain ⟨v, hv, user, -⟩ := folds.user hk (plain i head k hk)
        exact ⟨v, hv, user⟩
      have kinds (h : Handle) : (t.modify o (·.foldInto e.text e.precedence)).kind? h = t.kind? h := by
        rw [Table.kind?_eq_content?, Table.content?_modify_foldInto, Table.kind?_eq_content?]
      refine ih (fun j hj => (fits j (.tail i hj)).mono fun h kind => (kinds h).trans)
        (fun j hj => computes j (.tail i hj)) (fun j hj k hk v hv temporary => ?_)
        (folds.numeralsLiteral numerals (fits i head) written (computes i head) users)
      rw [Table.get?_modify] at hv
      split at hv
      · obtain ⟨u, -, rfl⟩ := Option.map_eq_some_iff.mp hv
        cases temporary
      · exact plain j (.tail i hj) k hk v hv temporary

end MatrixCode
