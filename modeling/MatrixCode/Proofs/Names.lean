import MatrixCode.Proofs.Expressions

/-!
The names that a text uses. The text of a scalar is put together from the texts of its operands, with
signs, parentheses, casts and calls around them. None of these is the name of a variable, so an
instruction that is folded away leaves a text that names what its operands name, and nothing else.
-/

namespace MatrixCode
namespace Identifier

/-- The free identifiers of a text that follows a character. -/
def freeAfter (before : Option Char) (cs : List Char) : List String :=
  ((occurrences before cs).filter fun (before, word, rest) => isFree before word rest).map
    fun (_, word, _) => String.ofList word

/-- The free identifiers of a text: what it names. -/
def free (text : String) : List String := freeAfter none text.toList

theorem hasFree_iff (text : String) : hasFree text ↔ free text ≠ [] := by
  simp only [hasFree, free, freeAfter, List.any_eq_true, ne_eq, List.map_eq_nil_iff,
    List.filter_eq_nil_iff, not_forall, not_not, exists_prop]

theorem free_eq_nil {text : String} (closed : hasFree text = false) : free text = [] := by
  by_contra some
  rw [(hasFree_iff text).mpr some] at closed
  cases closed

theorem free_signed (negative : Bool) {text : List Char} (numeric : Decimal.Numeric text) :
    free (NumberText.signed negative text) = [] :=
  free_eq_nil (hasFree_signed negative numeric)

section Characters

variable {before : Option Char} {c : Char} {cs ds : List Char}

@[simp] theorem freeAfter_nil : freeAfter before [] = [] := by
  rw [freeAfter, occurrences]
  rfl

theorem freeAfter_cons (other : isStart c = false) :
    freeAfter before (c :: cs) = freeAfter (some c) cs := by
  rw [freeAfter, occurrences, other, if_neg Bool.false_ne_true, freeAfter]

theorem freeAfter_eq_nil (h : ∀ c ∈ cs, isStart c = false) : freeAfter before cs = [] := by
  induction cs generalizing before with
  | nil => exact freeAfter_nil
  | cons c cs ih =>
      obtain ⟨first, others⟩ := List.forall_mem_cons.mp h
      rw [freeAfter_cons first, ih others]

theorem isStart_of_isPart (h : isPart c = false) : isStart c = false := by
  rw [Bool.eq_false_iff]
  exact fun start => Bool.false_ne_true (h.symm.trans (isPart_of_isStart start))

theorem freeAfter_start (start : isStart c) : freeAfter before (c :: cs) =
    (if isFree before (c :: cs.takeWhile isPart) (cs.dropWhile isPart) then
      [String.ofList (c :: cs.takeWhile isPart)] else []) ++
    freeAfter (some ((c :: cs.takeWhile isPart).getLastD c)) (cs.dropWhile isPart) := by
  rw [freeAfter, occurrences, if_pos start, freeAfter]
  by_cases free : isFree before (c :: cs.takeWhile isPart) (cs.dropWhile isPart) <;> simp [free]

/-- A word comes first, and then what follows it. -/
theorem freeAfter_word {word : String} (name : isName word) (other : isPart c = false) :
    freeAfter before (word.toList ++ c :: cs) =
      (if isFree before word.toList (c :: cs) then [word] else []) ++ freeAfter (some c) cs := by
  obtain ⟨d, ds, same, start, parts⟩ := exists_of_isName name
  have stops : ∀ x ∈ (c :: cs).head?, isPart x = false := by simpa using other
  obtain ⟨taken, dropped⟩ := Grammar.span_isPart parts stops
  have back : String.ofList (d :: ds) = word := by rw [← same, String.ofList_toList]
  rw [same, List.cons_append, freeAfter_start start, taken, dropped, back,
    freeAfter_cons (isStart_of_isPart other)]

/-- A name stands for itself, unless it is a word of casts. -/
theorem free_of_isName {word : String} (name : isName word) :
    free word = if word ∈ castWords then [] else [word] := by
  obtain ⟨d, ds, same, start, parts⟩ := exists_of_isName name
  have stops : ∀ x ∈ ([] : List Char).head?, isPart x = false := by simp
  obtain ⟨taken, dropped⟩ := Grammar.span_isPart parts stops
  rw [List.append_nil] at taken dropped
  have back : String.ofList (d :: ds) = word := by rw [← same, String.ofList_toList]
  rw [free, same, freeAfter_start start, taken, dropped, back, freeAfter_nil, List.append_nil]
  by_cases cast : word ∈ castWords <;>
    simp [isFree, continues, Blank.trimLeft, back, cast]

/-- Only what ties an identifier to the text before it matters before it. -/
theorem freeAfter_some (loose : glues c = false) : freeAfter (some c) cs = freeAfter none cs := by
  cases cs with
  | nil => simp
  | cons d ds =>
      by_cases start : isStart d
      · rw [freeAfter_start start, freeAfter_start start]
        simp [isFree, loose]
      · rw [freeAfter_cons (by simpa using start), freeAfter_cons (by simpa using start)]

/-- A text ends before the character, which goes on with nothing that stands before it. -/
structure Closes (c : Char) (cs : List Char) : Prop where
  part : isPart c = false
  colon : c ≠ ':'
  stops : continues (c :: cs) = false

theorem continues_append (closes : Closes c cs) : continues (ds ++ c :: cs) = continues ds := by
  have stops := closes.stops
  simp only [continues, Blank.trimLeft, List.dropWhile_append] at stops ⊢
  cases inner : ds.dropWhile Blank.isBlank with
  | nil =>
      simp only [List.isEmpty_nil, if_true]
      exact stops
  | cons d rest =>
      simp only [List.isEmpty_cons, Bool.false_eq_true, if_false, List.cons_append]
      cases rest with
      | nil =>
          have colon := closes.colon
          by_cases paren : d = '('
          · simp [paren]
          · by_cases same : d = ':' <;> simp_all
      | cons e rest =>
          by_cases paren : d = '('
          · simp [paren]
          · by_cases same : d = ':'
            · by_cases same' : e = ':' <;> simp_all
            · simp_all

/-- The free identifiers before a character that closes a text, and those after it. -/
theorem freeAfter_append (closes : Closes c cs) :
    freeAfter before (ds ++ c :: cs) = freeAfter before ds ++ freeAfter (some c) cs := by
  induction before, ds using occurrences.induct with
  | case1 before => simp [freeAfter_cons (isStart_of_isPart closes.part)]
  | case2 before d ds start tail rest ih =>
      have parts : ∀ x ∈ tail, isPart x := fun x hx => List.mem_takeWhile_imp hx
      have stops : ∀ x ∈ (rest ++ c :: cs).head?, isPart x = false := by
        intro x hx
        have head := List.head?_dropWhile_not isPart ds
        cases inner : ds.dropWhile isPart with
        | nil =>
            obtain rfl : c = x := by simpa [rest, inner] using hx
            exact closes.part
        | cons y ys =>
            obtain rfl : y = x := by simpa [rest, inner] using hx
            simpa [inner] using head
      obtain ⟨taken, dropped⟩ := Grammar.span_isPart parts stops
      rw [← List.append_assoc, List.takeWhile_append_dropWhile] at taken dropped
      rw [List.cons_append, freeAfter_start start, taken, dropped, ih, freeAfter_start start,
        isFree, isFree, continues_append closes, List.append_assoc]
  | case3 before d ds start ih =>
      have other : isStart d = false := by simpa using start
      rw [List.cons_append, freeAfter_cons other, freeAfter_cons other, ih]

/-- The words of a path that is called are not free. -/
theorem freeAfter_path {words : List String} (nonempty : words ≠ [])
    (names : ∀ word ∈ words, isName word) :
    freeAfter before (("::".intercalate words).toList ++ '(' :: cs) = freeAfter (some '(') cs := by
  induction words generalizing before with
  | nil => contradiction
  | cons word words ih =>
      obtain ⟨first, others⟩ := List.forall_mem_cons.mp names
      cases words with
      | nil =>
          rw [String.intercalate_singleton, freeAfter_word first (by decide)]
          simp [isFree, continues, Blank.trimLeft, show Blank.isBlank '(' = false by decide]
      | cons next words =>
          rw [String.intercalate_cons_cons, String.toList_append, String.toList_append,
            List.append_assoc, List.append_assoc]
          change freeAfter before (word.toList ++
            ':' :: ':' :: (("::".intercalate (next :: words)).toList ++ '(' :: cs)) = _
          rw [freeAfter_word first (by decide), freeAfter_cons (by decide), ih (by simp) others]
          simp [isFree, continues, Blank.trimLeft, show Blank.isBlank ':' = false by decide]

end Characters

section Texts

variable {text : String}

theorem free_inParentheses (text : String) : free (Writer.inParentheses text) = free text := by
  have closes : Closes ')' [] := ⟨by decide, by decide, by decide⟩
  simp only [free, Writer.inParentheses, String.toList_append]
  change freeAfter none ('(' :: (text.toList ++ [')'])) = _
  rw [freeAfter_cons (by decide), freeAfter_append closes, freeAfter_nil, List.append_nil,
    freeAfter_some (by decide)]

theorem free_negated (text : String) : free ("-" ++ text) = free text := by
  rw [free, String.toList_append]
  change freeAfter none ('-' :: text.toList) = _
  rw [freeAfter_cons (by decide), freeAfter_some (by decide), free]

theorem free_dereferenced (text : String) : free ("*" ++ text) = free text := by
  rw [free, String.toList_append]
  change freeAfter none ('*' :: text.toList) = _
  rw [freeAfter_cons (by decide), freeAfter_some (by decide), free]

theorem free_attempted (text : String) : free (text ++ "?") = free text := by
  have closes : Closes '?' [] := ⟨by decide, by decide, by decide⟩
  rw [free, String.toList_append]
  change freeAfter none (text.toList ++ ['?']) = _
  rw [freeAfter_append closes, freeAfter_nil, List.append_nil, free]

theorem free_widened (text : String) : free (text ++ " as f64") = free text := by
  have closes : Closes ' ' ("as".toList ++ ' ' :: "f64".toList) := ⟨by decide, by decide, by decide⟩
  have type : free "f64" = [] := by rw [free_of_isName (by decide), if_pos (by decide)]
  rw [free, String.toList_append]
  change freeAfter none (text.toList ++ ' ' :: ("as".toList ++ ' ' :: "f64".toList)) = _
  rw [freeAfter_append closes, freeAfter_word (by decide) (by decide), freeAfter_some (by decide),
    ← free, ← free, type]
  simp [isFree, castWords]

theorem free_between (op : Grammar.Operation) (text text' : String) :
    free (text ++ " " ++ op.sign ++ " " ++ text') = free text ++ free text' := by
  obtain ⟨c, sign, start, loose, closes⟩ : ∃ c, op.sign.toList = [c] ∧ isStart c = false ∧
      glues ' ' = false ∧ Closes ' ' (c :: ' ' :: text'.toList) := by
    cases op <;> exact ⟨_, rfl, by decide, by decide, by decide, by decide, rfl⟩
  rw [free]
  simp only [String.toList_append, sign, List.append_assoc]
  change freeAfter none (text.toList ++ ' ' :: c :: ' ' :: text'.toList) = _
  rw [freeAfter_append closes, freeAfter_cons start, freeAfter_cons (by decide), freeAfter_some loose,
    free, free]

theorem free_commaSeparated (texts : List String) :
    free (Writer.commaSeparated texts) = texts.flatMap free := by
  induction texts with
  | nil => simp [Writer.commaSeparated, free]
  | cons text texts ih =>
      cases texts with
      | nil => simp [Writer.commaSeparated]
      | cons next texts =>
          have closes : Closes ',' (' ' :: (Writer.commaSeparated (next :: texts)).toList) :=
            ⟨by decide, by decide, rfl⟩
          rw [List.flatMap_cons, ← ih, free, free, free, Writer.commaSeparated,
            String.intercalate_cons_cons, String.toList_append, String.toList_append, List.append_assoc]
          change freeAfter none (text.toList ++
            ',' :: ' ' :: (Writer.commaSeparated (next :: texts)).toList) = _
          rw [freeAfter_append closes, freeAfter_cons (by decide), freeAfter_some (by decide)]

/-- The text is made of names that are joined by double colons. -/
structure Qualified (text : String) (words : List String) : Prop where
  joined : text = "::".intercalate words
  nonempty : words ≠ []
  names : ∀ word ∈ words, isName word

instance (text : String) (words : List String) : Decidable (Qualified text words) :=
  decidable_of_iff (text = "::".intercalate words ∧ words ≠ [] ∧ ∀ word ∈ words, isName word)
    ⟨fun ⟨joined, nonempty, names⟩ => ⟨joined, nonempty, names⟩,
      fun ⟨joined, nonempty, names⟩ => ⟨joined, nonempty, names⟩⟩

theorem Qualified.of_isPath {words : List String} (path : Grammar.IsPath text words) :
    Qualified text words :=
  ⟨path.joined, path.nonempty, path.names⟩

theorem Qualified.append {words : List String} (q : Qualified text words) {name : String}
    (word : isName name) : Qualified (text ++ "::" ++ name) (words ++ [name]) where
  joined := by
    rw [String.intercalate_append_of_ne_nil q.nonempty (by simp), q.joined,
      String.intercalate_singleton]
  nonempty := by simp
  names x hx := by
    obtain hx | hx := List.mem_append.mp hx
    · exact q.names x hx
    · rwa [List.mem_singleton.mp hx]

theorem Qualified.line {words : List String} (q : Qualified text words) : '\n' ∉ text.toList := by
  rw [q.joined]
  exact Grammar.not_mem_intercalate (by decide) fun word hw =>
    Grammar.not_mem_of_isName (q.names word hw) rfl

theorem free_call {function : String} {words : List String} (path : Qualified function words)
    (texts : List String) (fallible : Bool) :
    free (Writer.call function texts fallible) = texts.flatMap free := by
  have sure : free (Writer.call function texts false) = texts.flatMap free := by
    have closes : Closes ')' [] := ⟨by decide, by decide, by decide⟩
    rw [free, Writer.call, path.joined]
    simp only [Writer.inParentheses, String.toList_append, List.append_assoc]
    change freeAfter none (("::".intercalate words).toList ++
      '(' :: ((Writer.commaSeparated texts).toList ++ [')'])) = _
    rw [freeAfter_path path.nonempty path.names, freeAfter_append closes, freeAfter_nil,
      List.append_nil, freeAfter_some (by decide), ← free, free_commaSeparated]
  cases fallible with
  | false => exact sure
  | true => rw [Grammar.call_fallible, free_attempted, sure]

end Texts

/-- The text is on one line and names these words, in this order. -/
structure Lists (words : List String) (text : String) : Prop where
  free : free text = words
  line : '\n' ∉ text.toList

namespace Lists

variable {words words' : List String} {text text' : String}

theorem of_isName (name : isName text) (plain : text ∉ castWords) : Lists [text] text where
  free := by rw [free_of_isName name, if_neg plain]
  line := Grammar.not_mem_of_isName name rfl

theorem signed (negative : Bool) {digits : List Char} (numeric : Decimal.Numeric digits) :
    Lists [] (NumberText.signed negative digits) where
  free := free_signed negative numeric
  line h := (NumberText.isNumeral_of_mem_signed numeric h).ne_of_not_isDigit (by decide) (by decide) rfl

theorem inParentheses (l : Lists words text) : Lists words (Writer.inParentheses text) where
  free := (free_inParentheses text).trans l.free
  line := by simpa [Writer.inParentheses] using l.line

theorem negated (l : Lists words text) : Lists words ("-" ++ text) where
  free := (free_negated text).trans l.free
  line := by simpa using l.line

theorem dereferenced (l : Lists words text) : Lists words ("*" ++ text) where
  free := (free_dereferenced text).trans l.free
  line := by simpa using l.line

theorem widened (l : Lists words text) : Lists words (text ++ " as f64") where
  free := (free_widened text).trans l.free
  line := by simpa using l.line

theorem between (op : Grammar.Operation) (l : Lists words text) (l' : Lists words' text') :
    Lists (words ++ words') (text ++ " " ++ op.sign ++ " " ++ text') where
  free := by rw [free_between, l.free, l'.free]
  line := by
    have : '\n' ∉ op.sign.toList := by cases op <;> decide
    simpa using ⟨l.line, this, l'.line⟩

theorem call {function : String} {path : List String} (q : Qualified function path)
    {texts : List String} (each : ∀ text ∈ texts, '\n' ∉ text.toList)
    (listed : texts.flatMap Identifier.free = words) (fallible : Bool) :
    Lists words (Writer.call function texts fallible) where
  free := (free_call q texts fallible).trans listed
  line := by
    have inner : '\n' ∉ (", ".intercalate texts).toList :=
      Grammar.not_mem_intercalate (by decide) each
    have mark : '\n' ∉ (if fallible then "?" else "").toList := by cases fallible <;> decide
    simpa [Writer.call, Writer.inParentheses, Writer.commaSeparated, -String.toList_intercalate] using
      ⟨q.line, inner, mark⟩

end Lists

/-- The text is on one line and names nothing but what `p` holds of. -/
structure NamesOnly (p : String → Prop) (text : String) : Prop where
  free : ∀ word ∈ free text, p word
  line : '\n' ∉ text.toList

namespace NamesOnly

variable {p : String → Prop} {text : String}

theorem mono {q : String → Prop} (n : NamesOnly p text) (h : ∀ word, p word → q word) :
    NamesOnly q text :=
  ⟨fun word hw => h word (n.free word hw), n.line⟩

theorem of_lists {words : List String} (l : Lists words text) (h : ∀ word ∈ words, p word) :
    NamesOnly p text :=
  ⟨l.free ▸ h, l.line⟩

theorem lists (n : NamesOnly p text) : Lists (Identifier.free text) text := ⟨rfl, n.line⟩

theorem of_isName (name : isName text) (h : p text) : NamesOnly p text where
  free word hw := by
    rw [free_of_isName name] at hw
    split at hw
    · cases hw
    · exact List.mem_singleton.mp hw ▸ h
  line := Grammar.not_mem_of_isName name rfl

theorem negated (n : NamesOnly p text) : NamesOnly p ("-" ++ text) := of_lists n.lists.negated n.free

end NamesOnly

end Identifier

open Identifier (NamesOnly Lists)

namespace Variable

theorem operand_of_isLiteral_eq_false {v : Variable} (plain : v.isLiteral = false) :
    v.operand = v.name := by
  rw [isLiteral, Option.isSome_eq_false_iff, Option.isNone_iff_eq_none] at plain
  rw [operand, plain]

theorem operand_of_body? {v : Variable} {text : String}
    (body : LiteralName.body? v.name = some text.toList) : v.operand = text := by
  simp [operand, body]

theorem operand_foldInto (v : Variable) {text : String} (line : '\n' ∉ text.toList)
    (precedence : Nat) : (v.foldInto text precedence).operand = text :=
  operand_of_body? (v.body?_foldInto line precedence)

theorem lists_integerLiteral (x : Int64) : Lists [] (integerLiteral x).operand := by
  have text : Word.text x = _ := NumberText.toString_eq_signed x.toInt
  have listed : Lists [] (Word.text x) := text ▸ .signed _ (NumberText.numeric_repr _)
  have body : LiteralName.body? (integerLiteral x).name = some (Word.text x).toList :=
    LiteralName.body?_wrap_integer listed.line
  rwa [operand_of_body? body]

theorem lists_doubleLiteral {x : Float} {negative : Bool} {m : Nat} {q : Int}
    (decoded : Binary.decode x = .finite negative m q) : Lists [] (doubleLiteral x).operand := by
  obtain ⟨digits, text, numeric, -⟩ := NumberText.literal_of_decode decoded
  have listed : Lists [] (NumberText.literal x) := text ▸ .signed _ numeric
  have body : LiteralName.body? (doubleLiteral x).name = some (NumberText.literal x).toList :=
    LiteralName.body?_wrap_double listed.line
  rwa [operand_of_body? body]

theorem lists_operandIn {words : List String} {v : Variable} (l : Lists words v.operand)
    (context : Nat) : Lists words (v.operandIn context) := by
  rw [operandIn]
  split
  · exact l.inParentheses
  · exact l

/-- The text of an integer literal names nothing. -/
theorem free_of_literalInteger? {v : Variable} {x : Int64} (literal : v.literalInteger? = some x) :
    Identifier.free v.operand = [] := by
  unfold literalInteger? at literal
  split at literal
  · obtain ⟨body, named, word⟩ := Option.bind_eq_some_iff.mp literal
    obtain ⟨z, integer, -⟩ := Option.bind_eq_some_iff.mp word
    obtain ⟨ds, n, natural, written⟩ := Grammar.integer?_eq_some integer
    obtain ⟨bs, bs', same, before, after⟩ := Grammar.exists_trim body
    rw [Reader.natural?, Option.ite_none_right_eq_some] at natural
    have digit (c : Char) (hc : c ∈ ds) : Identifier.isStart c = false :=
      Identifier.isStart_of_isDigit (List.all_eq_true.mp natural.1.2 c hc)
    have blank (c : Char) (hc : Blank.isBlank c) : Identifier.isStart c = false := by
      rw [Bool.eq_false_iff]
      exact fun start => Bool.false_ne_true ((Grammar.isBlank_of_isStart start).symm.trans hc)
    have core : ∀ c ∈ Blank.trim body, Identifier.isStart c = false := by
      obtain ⟨core, -⟩ | ⟨core, -⟩ | ⟨core, -⟩ := written
      · exact core ▸ digit
      · rw [core]
        exact List.forall_mem_cons.mpr ⟨by decide, digit⟩
      · rw [core]
        exact List.forall_mem_cons.mpr ⟨by decide, digit⟩
    rw [operand, named, Identifier.free, String.toList_ofList, same]
    refine Identifier.freeAfter_eq_nil fun c hc => ?_
    obtain (hc | hc) | hc := (List.mem_append.mp hc).imp_left List.mem_append.mp
    · exact blank c (before c hc)
    · exact core c hc
    · exact blank c (after c hc)
  · cases literal

end Variable

namespace Writer

open Grammar
open Identifier (Qualified)

variable {w : Writer} {t : Table} {names : Handle → List String} {h : Handle} {context : Nat}
  {text : String}

/-- The operand is in the table, and its text names the given words. -/
def Listed (t : Table) (names : Handle → List String) (h : Handle) : Prop :=
  ∃ v, t.get? h = some v ∧ Lists (names h) v.operand

theorem Listed.scalar (listed : Listed t names h) (written : w.scalar t h context = .ok text) :
    Lists (names h) text := by
  obtain ⟨v, hv, l⟩ := listed
  by_cases literal : v.isLiteral
  · obtain rfl := Except.ok.inj ((scalar_eq_of_isLiteral hv literal).symm.trans written)
    exact Variable.lists_operandIn l context
  · rw [Variable.operand_of_isLiteral_eq_false (by simpa using literal)] at l
    by_cases role : w.role h v = .output
    · obtain rfl := Except.ok.inj ((scalar_eq_of_output hv role).symm.trans written)
      split
      · exact l.dereferenced.inParentheses
      · exact l.dereferenced
    · obtain rfl := Except.ok.inj ((scalar_eq_name hv literal role).symm.trans written)
      exact l

theorem Listed.double (listed : Listed t names h) (written : w.double t h context = .ok text) :
    Lists (names h) text := by
  obtain ⟨v, hv, l⟩ := listed
  obtain ⟨v', fetched, written⟩ := bind_eq_ok.mp written
  obtain rfl : v = v' := by
    have found := Outcome.toOption_eq_some.mpr fetched
    rwa [Table.toOption_fetch, hv, Option.some.injEq] at found
  split at written
  · exact Listed.scalar ⟨v, hv, l⟩ written
  · split at written
    · next x literal =>
        obtain ⟨m, q, decoded⟩ := Binary.decode_ofInt (natAbs_toInt_lt x)
        obtain ⟨digits, same, numeric, -⟩ := NumberText.literal_of_decode decoded
        obtain rfl := Except.ok.inj written
        rw [← l.free, Variable.free_of_literalInteger? literal, same]
        split
        · exact (Lists.signed _ numeric).inParentheses
        · exact Lists.signed _ numeric
    · obtain ⟨inner, scalar, same⟩ := bind_eq_ok.mp written
      obtain rfl := Except.ok.inj same
      exact (Listed.scalar ⟨v, hv, l⟩ scalar).widened.inParentheses

theorem Listed.operand (listed : Listed t names h) {wide : Bool}
    (written : w.operand t wide h context = .ok text) : Lists (names h) text := by
  cases wide with
  | true => exact listed.double written
  | false => exact listed.scalar written

theorem Listed.arguments {hs : List Handle} {texts : List String}
    (listed : ∀ h ∈ hs, Listed t names h) (written : hs.mapM (w.double t · 0) = .ok texts) :
    texts.flatMap Identifier.free = hs.flatMap names ∧ ∀ text ∈ texts, '\n' ∉ text.toList := by
  induction hs generalizing texts with
  | nil =>
      cases written
      simp
  | cons h hs ih =>
      obtain ⟨first, others⟩ := List.forall_mem_cons.mp listed
      rw [List.mapM_cons] at written
      obtain ⟨text, here, written⟩ := bind_eq_ok.mp written
      obtain ⟨texts, there, same⟩ := bind_eq_ok.mp written
      obtain rfl := Except.ok.inj same
      obtain ⟨free, lines⟩ := ih others there
      have l := first.double here
      exact ⟨by rw [List.flatMap_cons, List.flatMap_cons, l.free, free],
        List.forall_mem_cons.mpr ⟨l.line, lines⟩⟩

/-- A phrase names what its operands name, from the first to the last. -/
theorem lists_phrase {kernels : List String} {trees : Handle → Expression} {phrase : Phrase}
    {e : Expression} {s : ScalarText} (path : Qualified w.kernels kernels)
    (listed : ∀ h ∈ phrase.handles, Listed t names h) (shows : Shows kernels t trees phrase e)
    (written : w.phrase t phrase = .ok s) : Lists (phrase.handles.flatMap names) s.text := by
  cases shows with
  | between op widen a b =>
      obtain ⟨left, right⟩ : Listed t names a ∧ Listed t names b := by
        simpa [Phrase.handles] using listed
      obtain ⟨text, here, written⟩ := bind_eq_ok.mp written
      obtain ⟨text', there, same⟩ := bind_eq_ok.mp written
      obtain rfl := Except.ok.inj same
      simpa [Phrase.handles] using (left.operand here).between op (right.operand there)
  | negation widen a =>
      obtain ⟨text, here, same⟩ := bind_eq_ok.mp written
      obtain rfl := Except.ok.inj same
      simpa [Phrase.handles] using ((listed a (by simp [Phrase.handles])).operand here).negated
  | alone widen a =>
      obtain ⟨text, here, same⟩ := bind_eq_ok.mp written
      obtain rfl := Except.ok.inj same
      simpa [Phrase.handles] using (listed a (by simp [Phrase.handles])).operand here
  | reciprocal a =>
      obtain ⟨text, here, same⟩ := bind_eq_ok.mp written
      obtain rfl := Except.ok.inj same
      have numeric : Decimal.Numeric ['1', '.', '0'] :=
        Decimal.numeric_of_digits ⟨_, _, rfl, by decide⟩ (by simp)
      have one : Lists [] "1.0" := .signed false numeric
      have between := one.between .divide ((listed a (by simp [Phrase.handles])).double here)
      simpa [Phrase.handles, Operation.sign] using between
  | integerQuotient a b =>
      obtain ⟨left, right⟩ : Listed t names a ∧ Listed t names b := by
        simpa [Phrase.handles] using listed
      obtain ⟨text, here, written⟩ := bind_eq_ok.mp written
      obtain ⟨text', there, same⟩ := bind_eq_ok.mp written
      obtain rfl := Except.ok.inj same
      have l := left.scalar here
      have l' := right.scalar there
      exact .call (path.append (by decide)) (by simpa using ⟨l.line, l'.line⟩)
        (by simp [Phrase.handles, l.free, l'.free]) true
  | integerAbs a =>
      obtain ⟨text, here, same⟩ := bind_eq_ok.mp written
      obtain rfl := Except.ok.inj same
      have l := (listed a (by simp [Phrase.handles])).scalar here
      have path : Qualified "i64::abs" ["i64", "abs"] := by decide
      exact .call path (by simpa using l.line) (by simp [Phrase.handles, l.free]) false
  | function function arguments =>
      obtain ⟨texts, here, same⟩ := bind_eq_ok.mp written
      obtain rfl := Except.ok.inj same
      obtain ⟨free, lines⟩ := Listed.arguments listed here
      exact .call (.of_isPath function) lines free false
  | library word reserved a =>
      obtain ⟨text, here, same⟩ := bind_eq_ok.mp written
      obtain rfl := Except.ok.inj same
      have l := (listed a (by simp [Phrase.handles])).double here
      exact .call (path.append word) (by simpa using l.line) (by simp [Phrase.handles, l.free]) false

theorem lists_fold {kernels : List String} {i : Instruction} {s : ScalarText}
    (path : Qualified w.kernels kernels) (listed : ∀ h ∈ i.inputs, Listed t names h)
    (folded : w.fold t i = .ok (some s)) :
    ∃ phrase, Phrase.ofInstruction? i = some phrase ∧ Lists (phrase.handles.flatMap names) s.text := by
  obtain ⟨phrase, instruction, written, -⟩ := phrase_of_fold folded
  obtain ⟨_, -, shows⟩ := shows_of_ofInstruction? t kernels (fun _ => .path []) instruction
  exact ⟨phrase, instruction, lists_phrase path
    (fun h hh => listed h (Phrase.handles_of_ofInstruction? instruction hh)) shows written⟩

end Writer

theorem ScalarText.lists_integer (n : Int64) : Lists [] (integer n).text := by
  have text : (integer n).text = _ := NumberText.toString_eq_signed n.toInt
  exact text ▸ .signed _ (NumberText.numeric_repr _)

/-- What is computed from literals is a literal; anything else is left to the folder. -/
theorem Folding.cases_expression? {t : Table} {folder : Folder} {i : Instruction} {e : ScalarText}
    (written : expression? folder t i = .ok (some e)) :
    folder t i = .ok (some e) ∨ (∃ n, e = .integer n) ∧
      ∀ h ∈ i.inputs, ∃ v x, t.get? h = some v ∧ v.literalInteger? = some x := by
  unfold expression? at written
  split at written
  · obtain ⟨values, known, written⟩ := Grammar.bind_eq_ok.mp written
    cases values with
    | none => exact .inl written
    | some values =>
        obtain ⟨n, -, rfl⟩ := Option.map_eq_some_iff.mp (Except.ok.inj written)
        refine .inr ⟨⟨n, rfl⟩, fun h hh => ?_⟩
        obtain ⟨vs, fetched, -⟩ := Grammar.bind_eq_ok.mp known
        have entries := Outcome.toOption_eq_some.mpr fetched
        rw [Outcome.toOption_mapM] at entries
        have covered : ∀ k ∈ i.inputs, (t.get? k).isSome := by
          simpa using Outcome.isSome_of_mapM entries
        have literals := Outcome.toOption_eq_some.mpr known
        rw [toOption_literals? covered, Option.some.injEq] at literals
        obtain ⟨x, hx⟩ := Option.isSome_iff_exists.mp (Outcome.isSome_of_mapM literals h hh)
        obtain ⟨_, appears, hx⟩ := Option.bind_eq_some_iff.mp hx
        obtain ⟨v, hv, rfl⟩ := Option.map_eq_some_iff.mp appears
        exact ⟨v, x, hv, hx⟩
  · exact .inl written

/-- The operand is in the table, and its text names only what `p` holds of. -/
def Table.Names (t : Table) (p : String → Prop) (h : Handle) : Prop :=
  ∃ v, t.get? h = some v ∧ NamesOnly p v.operand

/-- What the folder gives for an instruction names what the operands name. -/
def Folder.NamesOperands (folder : Folder) : Prop :=
  ∀ (p : String → Prop) (t : Table) (i : Instruction) (e : ScalarText),
    (∀ h ∈ i.inputs, t.Names p h) → folder t i = .ok (some e) → NamesOnly p e.text

/-- Folding by writing puts the texts of the operands together. -/
theorem Writer.namesOperands_fold {w : Writer} {kernels : List String}
    (path : Grammar.IsPath w.kernels kernels) : Folder.NamesOperands w.fold := by
  intro p t i e named folded
  let names (h : Handle) := (t.get? h).elim [] fun v => Identifier.free v.operand
  have listed : ∀ h ∈ i.inputs, Listed t names h := by
    intro h hh
    obtain ⟨v, hv, n⟩ := named h hh
    exact ⟨v, hv, by simpa [names, hv] using n.lists⟩
  obtain ⟨phrase, instruction, l⟩ := lists_fold (.of_isPath path) listed folded
  refine .of_lists l fun word hw => ?_
  obtain ⟨h, hh, hw⟩ := List.mem_flatMap.mp hw
  obtain ⟨v, hv, n⟩ := named h (Phrase.handles_of_ofInstruction? instruction hh)
  exact n.free word (by simpa [names, hv] using hw)

theorem Folder.NamesOperands.expression? {folder : Folder} (operands : folder.NamesOperands)
    {p : String → Prop} {t : Table} {i : Instruction} {e : ScalarText}
    (named : ∀ h ∈ i.inputs, t.Names p h) (written : Folding.expression? folder t i = .ok (some e)) :
    NamesOnly p e.text := by
  obtain folded | ⟨⟨n, rfl⟩, -⟩ := Folding.cases_expression? written
  · exact operands p t i e named folded
  · exact .of_lists (ScalarText.lists_integer n) (by simp)

/-- What the scalars among some handles may name, when they are no temporaries. -/
def Table.NamesWithin (t : Table) (of : Handle → Prop) (p : Handle → String → Prop) : Prop :=
  ∀ h v, of h → t.get? h = some v → v.temporary = false → v.kind.isScalar → NamesOnly (p h) v.operand

/-- Temporaries have no text yet. -/
theorem Table.NamesWithin.orTemporary {t : Table} {of : Handle → Prop} {p : Handle → String → Prop}
    (within : t.NamesWithin of p) : t.NamesWithin (fun h => t.IsTemporary h ∨ of h) p := by
  rintro h v (⟨u, hu, temporary⟩ | listed) hv user scalar
  · obtain rfl := Option.some.inj (hu.symm.trans hv)
    simp [user] at temporary
  · exact within h v listed hv user scalar

/-- Folding puts names together: what an instruction leaves is within what is allowed for its output,
when that takes in what is allowed for the operands that the policy knows. -/
theorem Shortens.namesWithin {folder : Folder} {policy : Policy} {of : Handle → Prop}
    {p : Handle → String → Prop} {t t' : Table} {is is' : List Instruction}
    (operands : folder.NamesOperands) (r : Shortens (Folding.Folds policy folder) t is is' t')
    (reads : ∀ i ∈ is, ∀ k ∈ i.inputs, of k)
    (gather : ∀ i ∈ is, ∀ o, i.Computes t o → ∀ k ∈ i.inputs,
      (∀ v, t.get? k = some v → v.temporary = false → policy.knows v) →
      ∀ word, p k word → p o word)
    (plain : ∀ i ∈ is, ∀ k ∈ i.inputs, ∀ v, t.get? k = some v → v.temporary = true →
      v.constant = false)
    (within : t.NamesWithin of p) : t'.NamesWithin of p := by
  induction r with
  | nil _ => exact within
  | keep i rest ih =>
      exact ih (fun j hj => reads j (.tail i hj)) (fun j hj => gather j (.tail i hj))
        (fun j hj => plain j (.tail i hj)) within
  | @fold t t' is is' i o e computes folds rest ih =>
      have entry (k : Handle) := t.get?_modify o k (·.foldInto e.text e.precedence)
      have named : ∀ k ∈ i.inputs, t.Names (p o) k := by
        intro k hk
        obtain ⟨v, hv, user, scalar⟩ := folds.user hk (plain i List.mem_cons_self k hk)
        exact ⟨v, hv, (within k v (reads i List.mem_cons_self k hk) hv user scalar).mono
          (gather i List.mem_cons_self o computes k hk fun _ hu _ => folds.knows hk hu)⟩
      have text := operands.expression? named (Outcome.toOption_eq_some.mp folds.expression)
      refine ih (fun j hj => reads j (.tail i hj)) (fun j hj u computes' k hk known => ?_)
        (fun j hj k hk v hv temporary => ?_) fun k v hk hv user scalar => ?_
      · refine gather j (.tail i hj) u computes'.of_foldInto k hk fun v hv user => known v ?_ user
        rw [entry, if_neg, hv]
        rintro rfl
        obtain ⟨u, hu, temporary⟩ := computes.temporary
        obtain rfl := Option.some.inj (hv.symm.trans hu)
        simp [user] at temporary
      · rw [entry] at hv
        split at hv
        · obtain ⟨u, -, rfl⟩ := Option.map_eq_some_iff.mp hv
          cases temporary
        · exact plain j (.tail i hj) k hk v hv temporary
      · rw [entry] at hv
        split at hv
        · next same =>
            obtain ⟨u, -, rfl⟩ := Option.map_eq_some_iff.mp hv
            rw [same, u.operand_foldInto text.line]
            exact text
        · exact within k v hk hv user scalar

end MatrixCode
