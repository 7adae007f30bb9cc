import MatrixCode.Proofs.NumberText
import MatrixCode.Proofs.Reading

/-!
Literals made by folding. A variable that is folded into the text of a value looks like
a literal with that value, and its name is an expression without free identifiers.
-/

namespace MatrixCode

namespace Decimal.IsNumeral

theorem toNat_of_isDigit {c : Char} (h : c.isDigit) : 48 ≤ c.toNat ∧ c.toNat ≤ 57 := by
  simp only [Char.isDigit, Bool.and_eq_true, decide_eq_true_eq, UInt32.le_iff_toNat_le] at h
  exact h

theorem isBlank_eq_false {c : Char} (h : IsNumeral c) : Blank.isBlank c = false := by
  rcases h with digit | rfl | rfl | rfl
  · have := toNat_of_isDigit digit
    simp [Blank.isBlank, Blank.intervals]
    omega
  all_goals decide

theorem ne_of_not_isDigit {c x : Char} (h : IsNumeral c) (hx : x ∉ ['.', '-', 'e'])
    (digit : ¬x.isDigit) : x ≠ c := by
  rintro rfl
  rcases h with h | rfl | rfl | rfl
  · exact digit h
  all_goals simp at hx

end Decimal.IsNumeral

theorem Blank.trim_eq_self {cs : List Char} (h : ∀ c ∈ cs, Blank.isBlank c = false) : trim cs = cs := by
  have left (ds : List Char) (hd : ∀ c ∈ ds, isBlank c = false) : trimLeft ds = ds := by
    cases ds with
    | nil => rfl
    | cons d ds => simp [trimLeft, hd d]
  rw [trim, left cs h, left cs.reverse (by simpa using h), List.reverse_reverse]

namespace LiteralName

theorem beforeBrace_append {cs : List Char} (h : '\n' ∉ cs) : beforeBrace (cs ++ ['\x7d']) = some cs := by
  simp [beforeBrace, h]

theorem toList_wrap (word text : String) :
    (wrap word text).toList = (word.toList ++ ['\x7b']) ++ (text.toList ++ ['\x7d']) := by
  simp [wrap]

theorem body?_wrap_integer {text : String} (h : '\n' ∉ text.toList) :
    body? (wrap "Integer" text) = some text.toList := by
  simp only [body?, toList_wrap]
  rw [if_pos (by simp [List.isPrefixOf])]
  exact beforeBrace_append h

theorem body?_wrap_double {text : String} (h : '\n' ∉ text.toList) :
    body? (wrap "Double" text) = some text.toList := by
  simp only [body?, toList_wrap]
  rw [if_neg (by simp [List.isPrefixOf]), if_pos (by simp [List.isPrefixOf])]
  exact beforeBrace_append h

end LiteralName

theorem Variable.body?_foldInto (v : Variable) {text : String} (line : '\n' ∉ text.toList)
    (precedence : Nat) : LiteralName.body? (v.foldInto text precedence).name = some text.toList := by
  simp only [foldInto]
  split
  · exact LiteralName.body?_wrap_integer line
  · exact LiteralName.body?_wrap_double line

theorem Variable.withoutSuffix_eq_self {cs : List Char} (h : 'f' ∉ cs) : withoutSuffix cs = cs := by
  rw [withoutSuffix, if_neg]
  intro suffix
  exact h ((List.isSuffixOf_iff_suffix.mp suffix).subset (by simp))

namespace NumberText

theorem toString_eq_signed (z : Int) : toString z = signed (z < 0) (Nat.repr z.natAbs).toList := by
  apply String.toList_inj.mp
  cases z with
  | ofNat n =>
      change (Nat.repr n).toList = _
      simp [signed]
  | negSucc n =>
      change ("-" ++ Nat.repr (n + 1)).toList = _
      simp [signed, Int.negSucc_lt_zero]

theorem numeric_repr (n : Nat) : Decimal.Numeric (Nat.repr n).toList := by
  obtain ⟨c, rest, h⟩ := List.exists_cons_of_ne_nil (Reader.repr_ne_nil n)
  exact Decimal.numeric_of_digits ⟨c, rest, h, Reader.isDigit_of_mem_repr (h ▸ List.mem_cons_self)⟩
    fun x hx => .inl (Reader.isDigit_of_mem_repr hx)

theorem decimal?_repr (negative : Bool) (n : Nat) :
    Reader.decimal? negative (Nat.repr n).toList = some (Binary.nearest negative n 1) := by
  obtain ⟨whole, rest⟩ :=
    Reader.span_isDigit [] (fun c => Reader.isDigit_of_mem_repr (n := n)) (by simp)
  rw [List.append_nil] at whole rest
  simp only [Reader.decimal?, whole, rest, Reader.repr_ne_nil, false_and, if_false, Reader.exponent?,
    Option.map_some, Reader.digitsValue_repr]
  change some (Binary.ofScientific negative n 0) = _
  have size : ¬(0 : Int) + (n.log2 / 3 + 1 : Nat) < -330 := by omega
  by_cases zero : n = 0
  · simp [Binary.ofScientific, Binary.nearest, zero]
  · rw [Binary.ofScientific, if_neg zero, if_neg (by decide), if_neg size]
    simp [Binary.scaleDown]

theorem double?_toString (z : Int) : Reader.double? (toString z).toList = some (Binary.ofInt z) := by
  rw [toString_eq_signed, double?_signed _ (numeric_repr z.natAbs), decimal?_repr, Binary.ofInt]

/-- The texts of numbers hold nothing but the characters of numbers. -/
theorem isNumeral_of_mem_signed {negative : Bool} {text : List Char} (h : Decimal.Numeric text)
    {c : Char} (hc : c ∈ (signed negative text).toList) : Decimal.IsNumeral c := by
  cases negative with
  | false => exact h.chars (by simpa [signed] using hc)
  | true =>
      have : c = '-' ∨ c ∈ text := by simpa [signed] using hc
      exact this.elim (fun minus => .inr (.inr (.inl minus))) h.chars

end NumberText

namespace Identifier

/-- Characters that start no identifier are passed over. -/
theorem occurrences_append {cs : List Char} (h : ∀ c ∈ cs, isStart c = false) (before : Option Char)
    (ds : List Char) : occurrences before (cs ++ ds) = occurrences (cs.getLast?.or before) ds := by
  induction cs generalizing before with
  | nil => rfl
  | cons c cs ih =>
      obtain ⟨head, tail⟩ := List.forall_mem_cons.mp h
      rw [List.cons_append, occurrences, head, if_neg Bool.false_ne_true, ih tail, List.getLast?_cons]
      cases cs.getLast? <;> rfl

theorem occurrences_eq_nil {cs : List Char} (h : ∀ c ∈ cs, isStart c = false)
    (before : Option Char) : occurrences before cs = [] := by
  rw [← List.append_nil cs, occurrences_append h, occurrences]

theorem isStart_of_isDigit {c : Char} (h : c.isDigit) : isStart c = false := by
  have := Decimal.IsNumeral.toNat_of_isDigit h
  have other : c ≠ '_' := by
    rintro rfl
    cases h
  simp only [isStart, Char.isAlpha, Char.isUpper, Char.isLower, UInt32.le_iff_toNat_le,
    beq_eq_false_iff_ne.mpr other]
  have : c.toNat = c.val.toNat := rfl
  have : 'A'.val.toNat = 65 := rfl
  have : 'a'.val.toNat = 97 := rfl
  simp
  omega

theorem isStart_eq_false {c : Char} (h : c.isDigit ∨ c = '.' ∨ c = '-') : isStart c = false := by
  rcases h with digit | rfl | rfl
  · exact isStart_of_isDigit digit
  · rfl
  · rfl

/-- The exponent of a number belongs to the digit before it, so numbers are closed expressions. -/
theorem hasFree_signed (negative : Bool) {text : List Char} (h : Decimal.Numeric text) :
    hasFree (NumberText.signed negative text) = false := by
  obtain ⟨mantissa, exponent, rfl, digits, last⟩ := h.parts
  let sign := if negative then ['-'] else []
  have written : (NumberText.signed negative (mantissa ++ exponent)).toList =
      (sign ++ mantissa) ++ exponent := by
    cases negative <;> simp [NumberText.signed, sign]
  have front (c : Char) (hc : c ∈ sign ++ mantissa) : isStart c = false := by
    rcases List.mem_append.mp hc with hc | hc
    · have minus : c = '-' := by
        cases negative <;> simp_all [sign]
      exact isStart_eq_false (.inr (.inr minus))
    · exact isStart_eq_false ((digits c hc).imp_right .inl)
  rw [hasFree, written, occurrences_append front]
  rcases last with rfl | ⟨z, rfl⟩
  · simp [occurrences]
  · have nonempty : mantissa ≠ [] := by
      rintro rfl
      obtain ⟨c, rest, same, digit⟩ := h.head
      obtain rfl : 'e' = c := by simpa using congrArg List.head? same
      cases digit
    have glued : glues (mantissa.getLast nonempty) = true := by
      rcases digits _ (List.getLast_mem nonempty) with digit | point
      · simp [glues, isPart, Char.isAlphanum, digit]
      · simp [glues, point]
    have rest : ∀ c ∈ (toString z).toList.dropWhile isPart, isStart c = false := fun c hc =>
      isStart_eq_false ((Decimal.mem_toString_int ((List.dropWhile_sublist _).subset hc)).imp_right .inr)
    rw [occurrences, if_pos (by decide)]
    dsimp only
    rw [occurrences_eq_nil rest, List.getLast?_append_of_ne_nil _ nonempty,
      List.getLast?_eq_some_getLast nonempty]
    simp [isFree, glued]

end Identifier

namespace Machine

theorem literal?_text {x : Value} {e : ScalarText} (he : literal? x = some e) :
    ∃ negative text, e.text = NumberText.signed negative text ∧ Decimal.Numeric text := by
  cases x with
  | integer n =>
      obtain rfl : ScalarText.integer n = e := by simpa [literal?] using he
      exact ⟨_, _, NumberText.toString_eq_signed n.toInt, NumberText.numeric_repr _⟩
  | double d =>
      simp only [literal?, Option.ite_none_right_eq_some, Option.some.injEq] at he
      obtain ⟨finite, rfl⟩ := he
      obtain ⟨negative, text, written, numeric, -⟩ := NumberText.literal_spec finite
      exact ⟨negative, text, written, numeric⟩
  | matrix _ => cases he

/-- What a literal of a value is written as, and how it is read. -/
theorem literal?_spec {x : Value} {e : ScalarText} (he : literal? x = some e) :
    (∀ c ∈ e.text.toList, Decimal.IsNumeral c) ∧ x.matrix? = none ∧
      (∀ n, x = .integer n → Reader.word? e.text.toList = some n) ∧
      Reader.double? e.text.toList = x.double? := by
  obtain ⟨negative, text, written, numeric⟩ := literal?_text he
  have chars (c : Char) (hc : c ∈ e.text.toList) : Decimal.IsNumeral c :=
    NumberText.isNumeral_of_mem_signed numeric (written ▸ hc)
  cases x with
  | integer n =>
      obtain rfl : ScalarText.integer n = e := by simpa [literal?] using he
      refine ⟨chars, rfl, ?_, NumberText.double?_toString n.toInt⟩
      rintro k ⟨⟩
      exact Reader.word?_text n
  | double d =>
      simp only [literal?, Option.ite_none_right_eq_some, Option.some.injEq] at he
      obtain ⟨finite, rfl⟩ := he
      obtain ⟨negative, text, written, numeric, read⟩ := NumberText.literal_spec finite
      refine ⟨chars, rfl, nofun, ?_⟩
      rw [ScalarText.double, written, NumberText.double?_signed negative numeric, read]
      rfl
  | matrix _ => cases he

end Machine

namespace Variable

variable {v : Variable} {x : Value} {e : ScalarText}

/-- A variable folded into the text of a value is an expression without free identifiers. -/
theorem constant_foldInto (he : Machine.literal? x = some e) :
    (v.foldInto e.text e.precedence).constant = true := by
  obtain ⟨negative, text, written, numeric⟩ := Machine.literal?_text he
  rw [foldInto, written, Identifier.hasFree_signed negative numeric]
  rfl

/-- A variable folded into the text of a value looks like a literal with that value. -/
theorem appearance_foldInto (hk : v.kind = x.kind) (he : Machine.literal? x = some e) :
    (v.foldInto e.text e.precedence).appearance = ⟨v.kind, true, x.integer?, x.double?⟩ := by
  obtain ⟨numeral, scalar, word, double⟩ := Machine.literal?_spec he
  have body := v.body?_foldInto
    (fun h => (numeral _ h).ne_of_not_isDigit (by decide) (by decide) rfl) e.precedence
  have trimmed : Blank.trim e.text.toList = e.text.toList :=
    Blank.trim_eq_self fun c hc => (numeral c hc).isBlank_eq_false
  have bare : withoutSuffix e.text.toList = e.text.toList :=
    withoutSuffix_eq_self fun h => (numeral _ h).ne_of_not_isDigit (by decide) (by decide) rfl
  have kind : (v.foldInto e.text e.precedence).kind = x.kind := hk
  have isScalar : x.kind.isScalar = true := by
    cases x with
    | integer _ | double _ => rfl
    | matrix _ => cases scalar
  simp only [appearance, isLiteral, literalInteger?, literalDouble?, body, kind, trimmed, bare, isScalar,
    Option.isSome_some, Option.bind_some, if_true, double, hk]
  congr 1
  cases x with
  | integer n => simp [Value.kind, Value.integer?, word n rfl]
  | double d => simp [Value.kind, Value.integer?]
  | matrix _ => cases scalar

end Variable

/-- The text is that of the literal for the value. -/
def ScalarText.Denotes (e : ScalarText) (x : Value) : Prop :=
  ∃ l, Machine.literal? x = some l ∧ e.text = l.text

namespace ScalarText.Denotes

variable {e : ScalarText} {x : Value}

theorem matrix? (denotes : e.Denotes x) : x.matrix? = none := by
  obtain ⟨l, literal, -⟩ := denotes
  exact (Machine.literal?_spec literal).2.1

/-- Whatever its precedence, the text makes a literal with the value. -/
theorem appearance_foldInto (denotes : e.Denotes x) {v : Variable} (hk : v.kind = x.kind) :
    (v.foldInto e.text e.precedence).appearance = ⟨v.kind, true, x.integer?, x.double?⟩ := by
  obtain ⟨l, literal, same⟩ := denotes
  rw [same]
  exact Variable.appearance_foldInto hk literal

end ScalarText.Denotes
end MatrixCode
