import MatrixCode.Proofs.Books
import MatrixCode.Proofs.Names

/-!
The words of texts. A word is a longest run of characters that identifiers are made of, wherever it
stands. A scalar expression is put together from the names of its operands and from fixed texts, and
between any two of them stands a character that is in no word. So the words that look like temporaries
come from the names of variables.
-/

namespace MatrixCode

namespace Workspace

/-- The text is of the form `ti0`, `td0` or `tm0`, with any number. -/
def isTemporaryName (name : String) : Bool :=
  match name.toList with
  | 't' :: c :: digits => ['i', 'd', 'm'].contains c && !digits.isEmpty && digits.all Char.isDigit
  | _ => false

theorem isTemporaryName_temporaryName (kind : Kind) (n : Nat) :
    isTemporaryName (temporaryName kind n) := by
  have digits : (Nat.repr n).toList.all Char.isDigit :=
    List.all_eq_true.mpr fun c => Reader.isDigit_of_mem_repr
  have nonempty := Reader.repr_ne_nil n
  cases kind <;> simpa [isTemporaryName, temporaryName, nonempty] using digits

end Workspace

namespace Identifier

/-- The words of a text; those between separators next to each other are empty. -/
def words (text : String) : List String :=
  (text.toList.splitOnP fun c => !isPart c).map String.ofList

/-- Among the words of the text that look like temporaries are only those that `cited` holds of. -/
def Cites (cited : String → Prop) (text : String) : Prop :=
  ∀ word ∈ words text, Workspace.isTemporaryName word → cited word

/-- No word of the text looks like a temporary. -/
def isPlain (text : String) : Bool := (words text).all fun word => !Workspace.isTemporaryName word

theorem isPlain_iff (text : String) : isPlain text ↔ Cites (fun _ => False) text := by
  simp [isPlain, Cites]

variable {cited : String → Prop} {text text' : String}

/-- A character that is in no word separates the words before it from those after it. -/
theorem words_append_cons {c : Char} (separates : isPart c = false) (before after : List Char) :
    words (.ofList (before ++ c :: after)) = words (.ofList before) ++ words (.ofList after) := by
  simp only [words, String.toList_ofList]
  rw [List.splitOnP_append_cons before after (by simp [separates]), List.map_append]

theorem words_of_parts (parts : ∀ c ∈ text.toList, isPart c) : words text = [text] := by
  rw [words, List.splitOnP_eq_singleton fun c hc => by simp [parts c hc]]
  simp

theorem words_of_isName (name : isName text) : words text = [text] := by
  obtain ⟨c, cs, same, start, parts⟩ := exists_of_isName name
  refine words_of_parts ?_
  rw [same]
  exact List.forall_mem_cons.mpr ⟨isPart_of_isStart start, parts⟩

theorem words_of_isTemporaryName (temporary : Workspace.isTemporaryName text) : words text = [text] := by
  refine words_of_parts ?_
  unfold Workspace.isTemporaryName at temporary
  split at temporary
  · next c digits same =>
      simp only [Bool.and_eq_true, List.contains_iff_mem] at temporary
      obtain ⟨⟨letter, -⟩, digit⟩ := temporary
      have letters : ['i', 'd', 'm'].all isPart := by decide
      rw [same]
      refine List.forall_mem_cons.mpr ⟨by decide, List.forall_mem_cons.mpr
        ⟨List.all_eq_true.mp letters c letter, ?_⟩⟩
      intro c hc
      simp [isPart, Char.isAlphanum, List.all_eq_true.mp digit c hc]
  · cases temporary

namespace Cites

theorem mono {cited' : String → Prop} (cites : Cites cited text) (h : ∀ word, cited word → cited' word) :
    Cites cited' text :=
  fun word hw temporary => h word (cites word hw temporary)

theorem of_isPlain (plain : isPlain text) : Cites cited text :=
  ((isPlain_iff text).mp plain).mono fun _ => False.elim

theorem of_words {word : String} (single : words text = [word])
    (h : Workspace.isTemporaryName word → cited word) : Cites cited text := by
  intro word' hw
  rw [single] at hw
  rwa [List.mem_singleton.mp hw]

theorem append_cons_iff {before after : List Char} {c : Char} (separates : isPart c = false) :
    Cites cited (.ofList (before ++ c :: after)) ↔
      Cites cited (.ofList before) ∧ Cites cited (.ofList after) := by
  rw [Cites, words_append_cons separates]
  exact List.forall_mem_append

/-- The second text starts with a separator. -/
theorem before (h : Cites cited text) (h' : Cites cited text')
    (separated : text'.toList.head?.any fun c => !isPart c) : Cites cited (text ++ text') := by
  cases same : text'.toList with
  | nil => simp [same] at separated
  | cons c cs =>
      have separates : isPart c = false := by simpa [same] using separated
      have rest : Cites cited (.ofList ([] ++ c :: cs)) := by
        rwa [List.nil_append, ← same, String.ofList_toList]
      rw [← String.ofList_toList (s := text ++ text'), String.toList_append, same]
      exact (append_cons_iff separates).mpr
        ⟨by rwa [String.ofList_toList], ((append_cons_iff separates).mp rest).2⟩

/-- The first text ends with a separator. -/
theorem after (h : Cites cited text) (h' : Cites cited text')
    (separated : text.toList.getLast?.any fun c => !isPart c) : Cites cited (text ++ text') := by
  obtain ⟨c, final, separates⟩ := (Option.any_eq_true _ _).mp separated
  have separates : isPart c = false := by simpa using separates
  obtain ⟨cs, same⟩ := List.getLast?_eq_some_iff.mp final
  have first : Cites cited (.ofList (cs ++ c :: [])) := by rwa [← same, String.ofList_toList]
  rw [← String.ofList_toList (s := text ++ text'), String.toList_append, same, List.append_assoc,
    List.singleton_append]
  exact (append_cons_iff separates).mpr
    ⟨((append_cons_iff separates).mp first).1, by rwa [String.ofList_toList]⟩

/-- A fixed text follows that starts with a separator. -/
theorem followed (h : Cites cited text)
    (fixed : isPlain text' ∧ text'.toList.head?.any fun c => !isPart c) : Cites cited (text ++ text') :=
  h.before (.of_isPlain fixed.1) fixed.2

/-- A fixed text stands in front that ends with a separator. -/
theorem preceded (h : Cites cited text')
    (fixed : isPlain text ∧ text.toList.getLast?.any fun c => !isPart c) : Cites cited (text ++ text') :=
  after (.of_isPlain fixed.1) h fixed.2

/-- A fixed text stands between two others. -/
theorem joined {sign : String} (h : Cites cited text) (h' : Cites cited text')
    (fixed : isPlain sign ∧ (sign.toList.head?.any fun c => !isPart c) ∧
      sign.toList.getLast?.any fun c => !isPart c) : Cites cited (text ++ sign ++ text') := by
  rw [String.append_assoc]
  refine h.before (h'.preceded ⟨fixed.1, fixed.2.2⟩) ?_
  obtain ⟨c, first, separates⟩ := (Option.any_eq_true _ _).mp fixed.2.1
  obtain ⟨cs, same⟩ := List.head?_eq_some_iff.mp first
  simpa [same] using separates

theorem commaSeparated {texts : List String} (each : ∀ text ∈ texts, Cites cited text) :
    Cites cited (Writer.commaSeparated texts) := by
  induction texts with
  | nil => exact .of_isPlain (by decide)
  | cons text texts ih =>
      obtain ⟨first, others⟩ := List.forall_mem_cons.mp each
      cases texts with
      | nil => exact first
      | cons next texts =>
          rw [Writer.commaSeparated, String.intercalate_cons_cons]
          exact first.joined (ih others) (by decide)

theorem inParentheses (h : Cites cited text) : Cites cited (Writer.inParentheses text) :=
  (h.preceded (by decide)).followed (by decide)

theorem call {function : String} {arguments : List String} (named : Cites cited function)
    (each : ∀ text ∈ arguments, Cites cited text) (fallible : Bool) :
    Cites cited (Writer.call function arguments fallible) := by
  have sure : Cites cited (function ++ Writer.inParentheses (Writer.commaSeparated arguments)) :=
    named.before (commaSeparated each).inParentheses (by simp [Writer.inParentheses]; decide)
  cases fallible with
  | true => exact sure.followed (by decide)
  | false => simpa [Writer.call] using sure

end Cites
end Identifier

open Identifier (Cites isPlain)

section Literals

variable {cited : String → Prop}

theorem Identifier.subset_of_mem_splitOnP {p : Char → Bool} {text word : List Char}
    (hw : word ∈ text.splitOnP p) : word ⊆ text := by
  induction text generalizing word with
  | nil =>
      rw [List.splitOnP_nil, List.mem_singleton] at hw
      exact hw ▸ List.Subset.refl _
  | cons c cs ih =>
      obtain ⟨first, others, split⟩ := List.exists_cons_of_ne_nil (List.splitOnP_ne_nil p cs)
      rw [List.splitOnP_cons_eq_if_modifyHead, split] at hw
      rw [split, List.forall_mem_cons] at ih
      split at hw
      · obtain rfl | rfl | hw := by simpa using hw
        · exact List.nil_subset _
        · exact List.subset_cons_of_subset c ih.1
        · exact List.subset_cons_of_subset c (ih.2 word hw)
      · obtain rfl | hw := by simpa using hw
        · exact List.cons_subset_cons c ih.1
        · exact List.subset_cons_of_subset c (ih.2 word hw)

/-- A name of a temporary starts with a letter that is in no number. -/
theorem Identifier.Cites.of_notMem {text : String} (h : 't' ∉ text.toList) : Cites cited text := by
  intro word hw temporary
  obtain ⟨cs, hcs, rfl⟩ := List.mem_map.mp hw
  unfold Workspace.isTemporaryName at temporary
  split at temporary
  · next c digits same =>
      rw [String.toList_ofList] at same
      exact absurd (subset_of_mem_splitOnP hcs (same ▸ List.mem_cons_self)) h
  · cases temporary

theorem Identifier.Cites.signed (negative : Bool) {digits : List Char}
    (numeric : Decimal.Numeric digits) : Cites cited (NumberText.signed negative digits) :=
  .of_notMem fun h => (NumberText.isNumeral_of_mem_signed numeric h).ne_of_not_isDigit (by decide)
    (by decide) rfl

theorem Identifier.Cites.word (x : Int64) : Cites cited (Word.text x) := by
  have text : Word.text x = _ := NumberText.toString_eq_signed x.toInt
  exact text ▸ .signed _ (NumberText.numeric_repr _)

theorem Identifier.Cites.double (x : Float) : Cites cited (NumberText.literal x) := by
  cases decoded : Binary.decode x with
  | notANumber =>
      rw [NumberText.literal, NumberText.ofFloat, decoded]
      exact .of_isPlain (by decide)
  | infinite negative =>
      rw [NumberText.literal, NumberText.ofFloat, decoded]
      cases negative
      all_goals exact .of_isPlain (by decide)
  | finite negative m q =>
      obtain ⟨digits, same, numeric, -⟩ := NumberText.literal_of_decode decoded
      exact same ▸ .signed _ numeric

theorem Identifier.Cites.wrap {word text : String} (named : Cites cited word) (h : Cites cited text) :
    Cites cited (LiteralName.wrap word text) :=
  (named.joined h (by decide)).followed (by decide)

theorem Variable.cites_foldInto (v : Variable) {text : String} (h : Cites cited text) (precedence : Nat) :
    Cites cited (v.foldInto text precedence).name := by
  refine .wrap ?_ h
  split
  all_goals exact .of_isPlain (by decide)

theorem LiteralName.exists_of_beforeBrace {cs body : List Char} (h : beforeBrace cs = some body) :
    cs = body ++ ['\x7d'] := by
  unfold beforeBrace at h
  split at h
  · next closed =>
      obtain rfl := Option.some.inj h
      obtain ⟨front, rfl⟩ := List.getLast?_eq_some_iff.mp closed.1
      rw [List.dropLast_concat]
  · cases h

theorem LiteralName.exists_of_body? {name : String} {body : List Char} (h : body? name = some body) :
    ∃ word : List Char, name.toList = word ++ '\x7b' :: (body ++ '\x7d' :: []) := by
  have opened {word : List Char} (starts : (word ++ ['\x7b']).isPrefixOf name.toList)
      (braced : beforeBrace (name.toList.drop (word ++ ['\x7b']).length) = some body) :
      name.toList = word ++ '\x7b' :: (body ++ '\x7d' :: []) := by
    obtain ⟨rest, same⟩ := List.isPrefixOf_iff_prefix.mp starts
    rw [← same, List.drop_left] at braced
    rw [← same, exists_of_beforeBrace braced, List.append_assoc]
    rfl
  simp only [body?] at h
  split at h
  · next starts => exact ⟨"Integer".toList, opened starts h⟩
  · split at h
    · next starts => exact ⟨"Double".toList, opened starts h⟩
    · cases h

theorem Variable.cites_operand {v : Variable} (named : Cites cited v.name) : Cites cited v.operand := by
  cases body : LiteralName.body? v.name with
  | none => rwa [operand, body]
  | some text =>
      obtain ⟨word, same⟩ := LiteralName.exists_of_body? body
      rw [← String.ofList_toList (s := v.name), same] at named
      have inner := ((Cites.append_cons_iff (by decide)).mp named).2
      rw [operand, body]
      exact ((Cites.append_cons_iff (by decide)).mp inner).1

theorem Variable.cites_operandIn {v : Variable} (named : Cites cited v.name) (context : Nat) :
    Cites cited (v.operandIn context) := by
  rw [operandIn]
  split
  · exact (cites_operand named).inParentheses
  · exact cites_operand named

end Literals

section Results

variable {α β : Type} {p : α → Prop} {q : β → Prop}

/-- If the computation succeeds, the result has the property. -/
def GivesOnly (p : α → Prop) (x : Outcome α) : Prop := ∀ a, x = .ok a → p a

theorem givesOnly_pure {a : α} (h : p a) : GivesOnly p (pure a : Outcome α) :=
  fun _ same => Except.ok.inj same ▸ h

theorem givesOnly_error (e : Failure) : GivesOnly p (.error e : Outcome α) := nofun

theorem GivesOnly.bind {x : Outcome α} {f : α → Outcome β} (first : GivesOnly p x)
    (rest : ∀ a, p a → GivesOnly q (f a)) : GivesOnly q (x >>= f) := by
  intro b done
  obtain ⟨a, here, there⟩ := Grammar.bind_eq_ok.mp done
  exact rest a (first a here) b there

theorem givesOnly_bind (x : Outcome α) {f : α → Outcome β} (rest : ∀ a, GivesOnly q (f a)) :
    GivesOnly q (x >>= f) :=
  GivesOnly.bind (p := fun _ => True) (fun _ _ => trivial) fun a _ => rest a

theorem GivesOnly.mapM {f : β → Outcome α} {bs : List β} (each : ∀ b ∈ bs, GivesOnly p (f b)) :
    GivesOnly (fun as => ∀ a ∈ as, p a) (bs.mapM f) := by
  induction bs with
  | nil => exact givesOnly_pure (by simp)
  | cons b bs ih =>
      obtain ⟨first, others⟩ := List.forall_mem_cons.mp each
      rw [List.mapM_cons]
      exact first.bind fun a ha => (ih others).bind fun as has =>
        givesOnly_pure (List.forall_mem_cons.mpr ⟨ha, has⟩)

theorem givesOnly_fetch (t : Table) (h : Handle) : GivesOnly (fun v => t.get? h = some v) (t.fetch h) := by
  intro v fetched
  have found := Outcome.toOption_eq_some.mpr fetched
  rwa [Table.toOption_fetch] at found

theorem givesOnly_input (i : Instruction) (position : Nat) : GivesOnly (· ∈ i.inputs) (i.input position) := by
  unfold Instruction.input
  split
  · next h found => exact givesOnly_pure (List.mem_of_getElem? found)
  · exact givesOnly_error _

end Results

/-- The words of the variable's name that look like temporaries are cited. -/
def Table.Speaks (t : Table) (cited : String → Prop) (h : Handle) : Prop :=
  ∀ v, t.get? h = some v → Cites cited v.name

namespace Writer

variable {w : Writer} {t : Table} {cited : String → Prop} {h : Handle} {context : Nat}

theorem cites_scalar (speaks : t.Speaks cited h) : GivesOnly (Cites cited) (w.scalar t h context) := by
  refine (givesOnly_fetch t h).bind fun v hv => ?_
  have named := speaks v hv
  split
  · exact givesOnly_pure (Variable.cites_operandIn named context)
  · refine givesOnly_pure ?_
    have dereferenced : Cites cited ("*" ++ v.name) := named.preceded (by decide)
    split
    · exact dereferenced.inParentheses
    · exact dereferenced
  · exact givesOnly_pure named
  · exact givesOnly_pure named

theorem cites_double (speaks : t.Speaks cited h) : GivesOnly (Cites cited) (w.double t h context) := by
  refine (givesOnly_fetch t h).bind fun v hv => ?_
  split
  · exact cites_scalar speaks
  · split
    · refine givesOnly_pure ?_
      split
      · exact (Cites.double _).inParentheses
      · exact .double _
    · exact (cites_scalar speaks).bind fun text cites =>
        givesOnly_pure (cites.followed (by decide)).inParentheses

theorem cites_operand (speaks : t.Speaks cited h) (wide : Bool) :
    GivesOnly (Cites cited) (w.operand t wide h context) := by
  cases wide with
  | true => exact cites_double speaks
  | false => exact cites_scalar speaks

theorem cites_index (speaks : t.Speaks cited h) : GivesOnly (Cites cited) (w.index t h) := by
  refine (givesOnly_fetch t h).bind fun v hv => (cites_scalar speaks).bind fun text cites => givesOnly_pure ?_
  split
  · exact (cites.followed (by decide)).inParentheses
  · exact cites

theorem cites_reference (speaks : t.Speaks cited h) : GivesOnly (Cites cited) (w.reference t h) := by
  refine (givesOnly_fetch t h).bind fun v hv => ?_
  have named := speaks v hv
  split
  · exact givesOnly_pure (named.preceded (by decide))
  · exact givesOnly_pure (named.preceded (by decide))
  · exact givesOnly_pure named
  · exact givesOnly_pure named

theorem cites_mutable (speaks : t.Speaks cited h) : GivesOnly (Cites cited) (w.mutable t h) := by
  refine (givesOnly_fetch t h).bind fun v hv => givesOnly_pure ?_
  have named := speaks v hv
  split
  all_goals exact named.preceded (by decide)

theorem cites_receiver (speaks : t.Speaks cited h) : GivesOnly (Cites cited) (receiver t h) :=
  (givesOnly_fetch t h).bind fun v hv => givesOnly_pure (speaks v hv)

theorem cites_leftSide (speaks : t.Speaks cited h) : GivesOnly (Cites cited) (w.leftSide t h) := by
  refine (givesOnly_fetch t h).bind fun v hv => givesOnly_pure ?_
  have named := speaks v hv
  split
  · exact named.preceded (by decide)
  · exact named

theorem cites_path (library : Cites cited w.kernels) {function : String} (plain : isPlain function) :
    Cites cited (w.path function) :=
  library.joined (.of_isPlain plain) (by decide)

end Writer

namespace Phrase

/-- The fixed texts of a phrase. -/
def texts : Phrase → List String
  | between sign _ _ _ _ => [sign]
  | function name _ | library name _ => [name]
  | _ => []

theorem isPlain_of_ofInstruction? {i : Instruction} {phrase : Phrase}
    (h : ofInstruction? i = some phrase) : ∀ text ∈ phrase.texts, isPlain text := by
  obtain ⟨a, rest, -, first⟩ | ⟨a, b, rest, -, second⟩ := cases_ofInstruction? h
  · unfold unary? at first
    split at first <;> cases first <;> simp only [texts] <;> decide
  · unfold binary? at second
    split at second <;> cases second <;> simp only [sum, difference, product, quotient, texts] <;> decide

end Phrase

namespace Writer

variable {w : Writer} {t : Table} {cited : String → Prop}

theorem cites_phrase (library : Cites cited w.kernels) {phrase : Phrase}
    (plain : ∀ text ∈ phrase.texts, isPlain text) (speaks : ∀ h ∈ phrase.handles, t.Speaks cited h) :
    GivesOnly (fun s => Cites cited s.text) (w.phrase t phrase) := by
  cases phrase with
  | between sign level wide a b =>
      obtain ⟨left, right⟩ : t.Speaks cited a ∧ t.Speaks cited b := by
        simpa [Phrase.handles] using speaks
      have sign : Cites cited sign := .of_isPlain (plain sign (by simp [Phrase.texts]))
      exact (cites_operand left wide).bind fun text h => (cites_operand right wide).bind fun text' h' =>
        givesOnly_pure (((h.followed (by decide)).after sign (by simp; decide)).joined h' (by decide))
  | negation wide a =>
      exact (cites_operand (speaks a (by simp [Phrase.handles])) wide).bind fun text h =>
        givesOnly_pure (h.preceded (by decide))
  | alone wide a =>
      exact (cites_operand (speaks a (by simp [Phrase.handles])) wide).bind fun text h =>
        givesOnly_pure h
  | reciprocal a =>
      exact (cites_double (speaks a (by simp [Phrase.handles]))).bind fun text h =>
        givesOnly_pure (h.preceded (by decide))
  | integerQuotient a b =>
      obtain ⟨left, right⟩ : t.Speaks cited a ∧ t.Speaks cited b := by
        simpa [Phrase.handles] using speaks
      exact (cites_scalar left).bind fun text h => (cites_scalar right).bind fun text' h' =>
        givesOnly_pure (.call (cites_path library (by decide)) (by simpa using ⟨h, h'⟩) true)
  | integerAbs a =>
      exact (cites_scalar (speaks a (by simp [Phrase.handles]))).bind fun text h =>
        givesOnly_pure (.call (.of_isPlain (by decide)) (by simpa using h) false)
  | function name arguments =>
      have named : Cites cited name := .of_isPlain (plain name (by simp [Phrase.texts]))
      exact (GivesOnly.mapM fun h hh => cites_double (speaks h hh)).bind fun texts each =>
        givesOnly_pure (.call named each false)
  | library name a =>
      exact (cites_double (speaks a (by simp [Phrase.handles]))).bind fun text h =>
        givesOnly_pure (.call (cites_path library (plain name (by simp [Phrase.texts])))
          (by simpa using h) false)

/-- The text that an instruction is folded into. -/
theorem cites_fold (library : Cites cited w.kernels) {i : Instruction}
    (speaks : ∀ h ∈ i.inputs, t.Speaks cited h) {s : ScalarText} (folded : w.fold t i = .ok (some s)) :
    Cites cited s.text := by
  obtain ⟨phrase, instruction, written, -⟩ := Grammar.phrase_of_fold folded
  exact cites_phrase library (Phrase.isPlain_of_ofInstruction? instruction)
    (fun h hh => speaks h (Phrase.handles_of_ofInstruction? instruction hh)) s written

end Writer

end MatrixCode
