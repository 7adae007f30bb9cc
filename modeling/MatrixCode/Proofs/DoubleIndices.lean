import MatrixCode.Proofs.Evaluation
import MatrixCode.Proofs.Numerals
import MatrixCode.Proofs.Selections

/-!
Ranges with doubles. Where a range has a double for an operand, resolving it takes whole numbers only,
while the written text casts the double, which drops what stands behind the point. The two agree exactly
if all doubles are whole, or if the text fails in any case.
-/

namespace MatrixCode

section Operands

variable {size : Nat} {value value' : Handle → Outcome Int64}

theorem Endpoint.isSome_of_resolve {e : Endpoint} (resolved : (e.resolve size value).toOption.isSome) :
    ∀ k ∈ e.handles, (value k).toOption.isSome := by
  cases e with
  | zero | one | length => simp [handles]
  | value k | past k =>
      simp only [resolve, Outcome.toOption_bind] at resolved
      simpa [handles] using Option.isSome_of_isSome_bind resolved

theorem Part.isSome_of_valueOr {default : Int64} {o : Option Handle}
    (read : (valueOr value default o).toOption.isSome) : ∀ k ∈ o.toList, (value k).toOption.isSome := by
  cases o with
  | none => simp
  | some k => simpa [valueOr] using read

theorem Part.isSome_of_resolve {p : Part} (resolved : (p.resolve size value).toOption.isSome) :
    ∀ k ∈ p.handles, (value k).toOption.isSome := by
  obtain ⟨is, resolved⟩ := Option.isSome_iff_exists.mp resolved
  cases p with
  | single k =>
      simp only [resolve, Outcome.toOption_bind, Option.bind_eq_some_iff] at resolved
      obtain ⟨x, read, -⟩ := resolved
      simp [handles, read]
  | span first step last =>
      simp only [resolve, Outcome.toOption_bind, Option.bind_eq_some_iff] at resolved
      obtain ⟨y, stepped, x, begun, z, ended, -⟩ := resolved
      have steps := isSome_of_valueOr (by rw [stepped]; rfl)
      exact List.forall_mem_append.mpr ⟨List.forall_mem_cons.mpr ⟨by simp [begun], steps⟩,
        by simp [ended]⟩
  | toEnd first step =>
      simp only [resolve, Outcome.toOption_bind, Option.bind_eq_some_iff] at resolved
      obtain ⟨x, begun, y, stepped, -⟩ := resolved
      have firsts := isSome_of_valueOr (by rw [begun]; rfl)
      have steps := isSome_of_valueOr (by rw [stepped]; rfl)
      exact List.forall_mem_append.mpr ⟨firsts, steps⟩

namespace Extent

/-- A range is resolved only if all its operands are read. -/
theorem isSome_of_resolve {e : Extent} (resolved : (e.resolve size value).toOption.isSome) :
    ∀ k ∈ e.handles, (value k).toOption.isSome := by
  obtain ⟨selection, resolved⟩ := Option.isSome_iff_exists.mp resolved
  cases e with
  | block start stop =>
      simp only [resolve, Outcome.toOption_bind, Option.bind_eq_some_iff] at resolved
      obtain ⟨i, first, j, last, -⟩ := resolved
      exact List.forall_mem_append.mpr ⟨start.isSome_of_resolve (by rw [first]; rfl),
        stop.isSome_of_resolve (by rw [last]; rfl)⟩
  | listed parts =>
      simp only [resolve, Outcome.toOption_bind, Outcome.toOption_mapM, Option.bind_eq_some_iff] at resolved
      obtain ⟨lists, each, -⟩ := resolved
      intro k hk
      obtain ⟨p, hp, hk⟩ := List.mem_flatMap.mp hk
      exact Part.isSome_of_resolve (Outcome.isSome_of_mapM each p hp) k hk

theorem map_id (e : Extent) : e.map id = e := by
  have endpoint (e : Endpoint) : e.map id = e := by cases e <;> rfl
  have part (p : Part) : p.map id = p := by cases p <;> simp [Part.map]
  cases e with
  | block start stop => rw [map, endpoint, endpoint]
  | listed parts => rw [map, List.map_congr_left fun p _ => part p, List.map_id']

theorem toOption_resolve_congr {e : Extent}
    (same : ∀ k ∈ e.handles, (value' k).toOption = (value k).toOption) :
    (e.resolve size value').toOption = (e.resolve size value).toOption := by
  have renamed := toOption_resolve_map id size value value' e same
  rwa [map_id] at renamed

end Extent
end Operands

namespace Store

variable (s : Store) (t : Table) (h : Handle)

/-- The variable is an integer or a double, and has a value. -/
def HasNumber : Prop :=
  (t.kind? h = some .integer ∧ ∃ x, (s.integer t h).toOption = some x) ∨
    (t.kind? h = some .double ∧ ∃ x, (s.double t h).toOption = some x)

/-- A double has nothing behind the point. -/
def IsWhole : Prop :=
  ∀ x, t.kind? h = some .double → (s.double t h).toOption = some x → Binary.isWhole x

/-- The number as an integer; a double is cast, toward zero. -/
def cast : Int64 :=
  if t.kind? h = some .double then ((s.double t h).toOption.map Binary.toWord).getD 0
  else (s.integer t h).toOption.getD 0

variable {s t h}

theorem HasNumber.isScalar (number : s.HasNumber t h) : ∃ v, t.get? h = some v ∧ v.kind.isScalar := by
  obtain ⟨kind, -⟩ | ⟨kind, -⟩ := number
  all_goals
    obtain ⟨v, hv, hk⟩ := Option.map_eq_some_iff.mp kind
    exact ⟨v, hv, by rw [hk]; rfl⟩

/-- Whole numbers are read as they are cast. -/
theorem index_of_isWhole (number : s.HasNumber t h) (whole : s.IsWhole t h) :
    (s.index t h).toOption = some (s.cast t h) := by
  obtain ⟨kind, x, read⟩ | ⟨kind, x, read⟩ := number
  · simp [index, cast, kind, read]
  · simp [index, cast, kind, read, whole x kind read]

theorem index_of_not_isWhole (broken : ¬s.IsWhole t h) : (s.index t h).toOption = none := by
  rw [IsWhole] at broken
  push Not at broken
  obtain ⟨x, kind, read, other⟩ := broken
  simp [index, kind, read, other]

theorem integer_of_literalInteger? {v : Variable} {x : Int64} (hv : t.get? h = some v)
    (literal : v.literalInteger? = some x) : (s.integer t h).toOption = some x := by
  have named := (Variable.isLiteral_of_integer literal).1
  simp [toOption_integer, Table.appearance?, hv, Variable.appearance, named, literal]

theorem cast_of_literalInteger? {v : Variable} {x : Int64} (hv : t.get? h = some v)
    (literal : v.literalInteger? = some x) : s.cast t h = x := by
  have kind := Variable.kind_of_literalInteger? literal
  simp [cast, Table.kind?, hv, kind, integer_of_literalInteger? hv literal]

end Store

/-- The variable as the text of a range sees it. Integer literals stand as they are. Another scalar is an
integer without a name, where it is an operand of the range, and otherwise does not occur. -/
def Variable.castWhen (listed : Bool) (v : Variable) : Variable :=
  if v.kind.isScalar ∧ v.literalInteger? = none then
    { v with name := "", content := if listed then .integer else .matrix }
  else v

namespace Variable

variable {v : Variable} {listed : Bool}

@[simp] theorem literalInteger?_castWhen : (v.castWhen listed).literalInteger? = v.literalInteger? := by
  unfold castWhen
  split
  · next other =>
      rw [other.2, literalInteger?]
      split <;> rfl
  · rfl

@[simp] theorem isLiteralOne_castWhen : (v.castWhen listed).isLiteralOne = v.isLiteralOne := by
  rw [isLiteralOne, isLiteralOne, literalInteger?_castWhen]

theorem content_castWhen (scalar : v.kind.isScalar) : (v.castWhen true).content = .integer := by
  unfold castWhen
  split
  · rfl
  · next other =>
      cases hx : v.literalInteger? with
      | none => exact absurd ⟨scalar, hx⟩ other
      | some x =>
          have kind : v.content.kind = .integer := kind_of_literalInteger? hx
          cases hc : v.content with
          | integer => rfl
          | double | matrix | sequence _ => simp [hc, Content.kind] at kind

theorem castWhen_of_not_isScalar (other : v.kind.isScalar = false) : v.castWhen listed = v :=
  if_neg (by simp [other])

end Variable

namespace Table

/-- The variables as the text of a range with these operands sees them. -/
def castWhere (t : Table) (hs : List Handle) : Table :=
  { t with entries := t.entries.mapIdx fun n v => v.castWhen (hs.contains ⟨n⟩) }

variable {t : Table} {hs : List Handle}

theorem get?_castWhere (h : Handle) :
    (t.castWhere hs).get? h = (t.get? h).map (Variable.castWhen (hs.contains h)) := by
  simp [castWhere, get?]

/-- What is an unknown integer for the text of a range is an operand of the range. -/
theorem mem_of_isUnknown_castWhere {h : Handle} (unknown : (t.castWhere hs).IsUnknown h) : h ∈ hs := by
  obtain ⟨v', found, kind, literal⟩ := unknown
  rw [get?_castWhere] at found
  obtain ⟨v, hv, rfl⟩ := Option.map_eq_some_iff.mp found
  rw [Variable.literalInteger?_castWhen] at literal
  by_contra other
  have unlisted : hs.contains h = false := by simpa using other
  rw [unlisted, Variable.castWhen] at kind
  split at kind
  · cases kind
  · next plain => exact plain ⟨by rw [kind]; rfl, literal⟩

end Table

namespace Extent

variable {t : Table} {hs : List Handle}

theorem isUnitStep_castWhere (step : Option Handle) :
    isUnitStep (t.castWhere hs) step = isUnitStep t step := by
  cases step with
  | none => rfl
  | some k =>
      simp only [isUnitStep, Table.fetch, Table.get?_castWhere]
      cases t.get? k <;> simp

theorem ofRange_castWhere (r : IndexRange) : ofRange (t.castWhere hs) r = ofRange t r := by
  cases r with
  | list items | union ranges => rfl
  | span first step last | toEnd first step => simp only [ofRange, isUnitStep_castWhere]

/-- A range keeps its form. -/
theorem classify_castWhere {h : Handle} {e : Extent} (classified : classify t h = .ok e) :
    classify (t.castWhere e.handles) h = .ok e := by
  obtain ⟨v, found, rest⟩ := Grammar.bind_eq_ok.mp classified
  have hv : t.get? h = some v := by simpa using Outcome.toOption_eq_some.mpr found
  have entry : (t.castWhere e.handles).lookup h = .ok (v.castWhen (e.handles.contains h)) :=
    Outcome.toOption_eq_some.mp (by simp [Table.get?_castWhere, hv])
  refine Grammar.bind_eq_ok.mpr ⟨_, entry, ?_⟩
  cases content : v.content with
  | integer | double =>
      rw [content] at rest
      obtain rfl := Except.ok.inj rest
      have scalar : v.kind.isScalar := by simp [Variable.kind, content, Content.kind, Kind.isScalar]
      have listed : (block (.value h) (.past h)).handles.contains h = true := by
        simp [handles, Endpoint.handles]
      rw [listed, Variable.content_castWhen scalar]
      rfl
  | sequence r =>
      rw [content] at rest
      rw [Variable.castWhen_of_not_isScalar (by simp [Variable.kind, content, Content.kind, Kind.isScalar]),
        content]
      exact (ofRange_castWhere r).trans rest
  | matrix =>
      rw [content] at rest
      cases rest

theorem ofHandle_castWhere : IndexOperand.ofHandle (t.castWhere hs) = IndexOperand.ofHandle t := by
  funext h
  cases hv : t.get? h with
  | none => simp [IndexOperand.ofHandle, Table.fetch, Table.get?_castWhere, hv]
  | some v =>
      have entry : (t.castWhere hs).get? h = some (v.castWhen (hs.contains h)) := by
        rw [Table.get?_castWhere, hv]
        rfl
      rw [IndexOperand.ofHandle_eq hv, IndexOperand.ofHandle_eq entry, Variable.literalInteger?_castWhen]

/-- A range keeps its index expression. -/
theorem expression_castWhere (e : Extent) : e.expression (t.castWhere hs) = e.expression t := by
  have position : Position.ofHandle (t.castWhere hs) = Position.ofHandle t := by
    funext h
    rw [Position.ofHandle, Position.ofHandle, ofHandle_castWhere]
  have after : Position.afterHandle (t.castWhere hs) = Position.afterHandle t := by
    funext h
    rw [Position.afterHandle, Position.afterHandle, ofHandle_castWhere]
  have endpoint : Position.ofEndpoint (t.castWhere hs) = Position.ofEndpoint t := by
    funext e
    cases e <;> simp only [Position.ofEndpoint, position, after]
  have option : IndexOperand.ofOption (t.castWhere hs) = IndexOperand.ofOption t := by
    funext default o
    cases o <;> simp only [IndexOperand.ofOption, ofHandle_castWhere]
  have part : Chunk.ofPart (t.castWhere hs) = Chunk.ofPart t := by
    funext p
    cases p <;> simp only [Chunk.ofPart, position, option, ofHandle_castWhere]
  cases e with
  | block start stop => rw [expression, expression, endpoint]
  | listed parts => rw [expression, expression, part]

end Extent

open Bracketed (Enclosed scan?)

/-- The values of the texts of scalars and lengths. -/
structure ScalarScope where
  integer : String → Option Int64
  double : String → Option Float
  length : String → Option Nat

namespace ScalarScope

/-- The text of a double that is cast to an integer. -/
def castOperand? (text : String) : Option String :=
  ((text.toList.dropPrefix? ['(']).bind (·.dropSuffix? " as i64)".toList)).map String.ofList

/-- The values of the texts of index operands. A cast drops what stands behind the point. -/
def indices (scope : ScalarScope) : IndexScope where
  integer text := match castOperand? text with
    | some inner => (scope.double inner).map Binary.toWord
    | none => scope.integer text
  length := scope.length

/-- The text of the variable stands for its value. -/
structure Shows (scope : ScalarScope) (w : Writer) (t : Table) (s : Store) (h : Handle) (text : String) :
    Prop where
  written : w.scalar t h Precedence.atom = .ok text
  integer : t.kind? h = some .integer → scope.indices.Reads text (s.cast t h)
  double : t.kind? h = some .double → Enclosed text ∧ scope.double text = (s.double t h).toOption

theorem toList_cast (text : String) :
    (Writer.inParentheses (text ++ " as i64")).toList = '(' :: (text.toList ++ " as i64)".toList) := by
  simp [Writer.inParentheses]

theorem castOperand?_cast (text : String) :
    castOperand? (Writer.inParentheses (text ++ " as i64")) = some text := by
  have inner : ('(' :: (text.toList ++ " as i64)".toList)).dropPrefix? ['('] =
      some (text.toList ++ " as i64)".toList) := by simp [List.dropPrefix?]
  have closing : (text.toList ++ " as i64)".toList).dropSuffix? " as i64)".toList = some text.toList :=
    List.dropSuffix?_eq_some_iff.mpr ⟨_, rfl, beq_self_eq_true _⟩
  rw [castOperand?, toList_cast, inner, Option.bind_some, closing, Option.map_some, String.ofList_toList]

theorem integer_cast (scope : ScalarScope) (text : String) :
    scope.indices.integer (Writer.inParentheses (text ++ " as i64")) =
      (scope.double text).map Binary.toWord := by
  simp only [indices, castOperand?_cast]

theorem enclosed_cast {text : String} (enclosed : Enclosed text) :
    Enclosed (Writer.inParentheses (text ++ " as i64")) := by
  rw [Enclosed, toList_cast, ← List.singleton_append]
  have opening : scan? ',' 0 ['('] = some 1 := rfl
  have inner : scan? ',' 1 text.toList = some 1 := Bracketed.scan?_succ ',' enclosed
  rw [Bracketed.scan?_append _ opening, Bracketed.scan?_append _ inner]
  rfl

/-- An operand of a range is written as the integer that it is cast to. -/
theorem Shows.reads {scope : ScalarScope} {w : Writer} {t : Table} {s : Store} {h : Handle} {text : String}
    (shows : scope.Shows w t s h text) (number : s.HasNumber t h) :
    ∃ text, w.index t h = .ok text ∧ scope.indices.Reads text (s.cast t h) := by
  obtain ⟨kind, -⟩ | ⟨kind, x, read⟩ := number
  · obtain ⟨v, hv, hk⟩ := Option.map_eq_some_iff.mp kind
    refine ⟨text, Outcome.toOption_eq_some.mp ?_, shows.integer kind⟩
    simp [Writer.index, hv, hk, shows.written]
  · obtain ⟨v, hv, hk⟩ := Option.map_eq_some_iff.mp kind
    obtain ⟨enclosed, value⟩ := shows.double kind
    refine ⟨Writer.inParentheses (text ++ " as i64"), Outcome.toOption_eq_some.mp ?_,
      enclosed_cast enclosed, ?_⟩
    · simp [Writer.index, hv, hk, shows.written]
    · have start : Blank.trimLeft (Writer.inParentheses (text ++ " as i64")).toList =
          (Writer.inParentheses (text ++ " as i64")).toList := by
        rw [toList_cast]
        rfl
      have number : Reader.word? (Writer.inParentheses (text ++ " as i64")).toList = none := by
        rw [toList_cast]
        rfl
      have cast : s.cast t h = Binary.toWord x := by simp [Store.cast, kind, read]
      rw [IndexScope.word?, start, number, String.ofList_toList, Option.none_or, integer_cast, value,
        read, cast, Option.map_some]

end ScalarScope

/-- A range with integers and doubles for operands, which all have values. What is written for it selects,
along a dimension of any length, what its index expression selects with the doubles cast to integers. If
the doubles are whole, it is resolved to that, or fails with it; and if not, it is not resolved. So the
two agree exactly if all doubles are whole or the text fails. -/
theorem Extent.resolve_eq_written_iff {t : Table} {s : Store} {h : Handle} {e : Extent}
    (classified : classify t h = .ok e) (numbers : ∀ k ∈ e.handles, s.HasNumber t k) (size : Nat) :
    ∃ x, e.expression t = .ok x ∧
      (∀ (w : Writer) (scope : ScalarScope) (length : String), (∃ words, Grammar.IsPath w.kernels words) →
        (∀ k ∈ e.handles, ∃ text, scope.Shows w t s k text) →
        scope.indices.Places w.kernels length (.ok size) →
        ∃ text, w.extent t e length = .ok text ∧
          text.selection? scope.indices w.kernels = some (x.eval (s.cast t) size) ∧
          scope.indices.list? w.kernels text.asList.toList =
            some ((x.eval (s.cast t) size).map Selection.indices)) ∧
      ((∀ k ∈ e.handles, s.IsWhole t k) →
        (e.resolve size (s.index t)).toOption = (x.eval (s.cast t) size).toOption) ∧
      ((∃ k ∈ e.handles, ¬s.IsWhole t k) → (e.resolve size (s.index t)).toOption = none) ∧
      ((e.resolve size (s.index t)).toOption = (x.eval (s.cast t) size).toOption ↔
        (∀ k ∈ e.handles, s.IsWhole t k) ∨ (x.eval (s.cast t) size).toOption = none) := by
  have valuation : (t.castWhere e.handles).Valuation (s.cast t) := by
    intro k v' x found literal
    rw [Table.get?_castWhere] at found
    obtain ⟨v, hv, rfl⟩ := Option.map_eq_some_iff.mp found
    exact Store.cast_of_literalInteger? hv (by rwa [Variable.literalInteger?_castWhen] at literal)
  have kinds : ∀ k ∈ e.handles, (t.castWhere e.handles).kind? k = some .integer := by
    intro k hk
    obtain ⟨v, hv, scalar⟩ := (numbers k hk).isScalar
    have listed : e.handles.contains k = true := by simpa using hk
    rw [Table.kind?, Table.get?_castWhere, hv, listed, Option.map_some, Option.map_some, Variable.kind,
      Variable.content_castWhen scalar]
    rfl
  obtain ⟨x, made, proper, resolved⟩ :=
    expression_spec valuation size (classify_castWhere classified) kinds
  have whole (each : ∀ k ∈ e.handles, s.IsWhole t k) :
      (e.resolve size (s.index t)).toOption = (x.eval (s.cast t) size).toOption := by
    have same := congrArg Except.toOption resolved
    rw [toOption_checked] at same
    rw [← same]
    exact toOption_resolve_congr fun k hk => Store.index_of_isWhole (numbers k hk) (each k hk)
  have broken (other : ∃ k ∈ e.handles, ¬s.IsWhole t k) : (e.resolve size (s.index t)).toOption = none := by
    obtain ⟨k, hk, other⟩ := other
    by_contra some
    have read := isSome_of_resolve (Option.isSome_iff_ne_none.mpr some) k hk
    simp [Store.index_of_not_isWhole other] at read
  refine ⟨x, expression_castWhere e ▸ made, fun w scope length path shown placed => ?_, whole, broken, ?_⟩
  · have means : (w.indexStyle t length).Means scope.indices (t.castWhere e.handles) (s.cast t) size := by
      refine ⟨path, fun k unknown => ?_, placed⟩
      have hk := Table.mem_of_isUnknown_castWhere unknown
      obtain ⟨text, shows⟩ := shown k hk
      exact shows.reads (numbers k hk)
    have rendered := render_spec made proper means
    rwa [render, expression_castWhere] at rendered
  · by_cases each : ∀ k ∈ e.handles, s.IsWhole t k
    · exact iff_of_true (whole each) (.inl each)
    · have none := broken (by push Not at each; exact each)
      rw [none, or_iff_right each, eq_comm]

/-- Zero, six and a double `x`, and the range of `x`, every `x`th index up to six, and the indices from
`x` on. -/
def Table.byDouble : Table where
  entries := #[.integerLiteral 0, .integerLiteral 6, .named "x" .double, .named "r" (.sequence (.union
    [.list [⟨2⟩], .span ⟨0⟩ (some ⟨2⟩) ⟨1⟩, .toEnd (some ⟨2⟩) none]))]
  literals := []

/-- Where the double is given. -/
def Store.ofDouble (x : Float) : Store := Store.empty.set ⟨2⟩ (.double x)

/-- Where the double is given and a matrix has five columns. -/
def ScalarScope.ofDouble (x : Float) : ScalarScope where
  integer _ := none
  double text := if text = "x" then some x else none
  length text := if text = "a.ncols()" then some 5 else none

theorem Table.operand_byDouble (x : Float) : ∀ k ∈ [(⟨0⟩ : Handle), ⟨1⟩, ⟨2⟩],
    (Store.ofDouble x).HasNumber byDouble k ∧
      ∃ text, (ScalarScope.ofDouble x).Shows .standard byDouble (.ofDouble x) k text := by
  have number (n : Int64) (k : Handle) (hv : byDouble.get? k = some (.integerLiteral n))
      (written : Writer.standard.scalar byDouble k Precedence.atom = .ok (Word.text n)) :
      (Store.ofDouble x).HasNumber byDouble k ∧
        ∃ text, (ScalarScope.ofDouble x).Shows .standard byDouble (.ofDouble x) k text := by
    have literal := Variable.literalInteger?_integerLiteral n
    have kind : byDouble.kind? k = some .integer := by rw [kind?, hv]; rfl
    refine ⟨.inl ⟨kind, n, Store.integer_of_literalInteger? hv literal⟩, Word.text n, written,
      fun _ => ?_, fun double => ?_⟩
    · rw [Store.cast_of_literalInteger? hv literal]
      exact IndexScope.reads_text n
    · rw [kind] at double
      cases double
  have double : (Store.ofDouble x).HasNumber byDouble ⟨2⟩ ∧
      ∃ text, (ScalarScope.ofDouble x).Shows .standard byDouble (.ofDouble x) ⟨2⟩ text := by
    refine ⟨.inr ⟨rfl, x, rfl⟩, "x", rfl, fun integer => ?_, fun _ => ⟨by decide, rfl⟩⟩
    cases integer
  intro k hk
  simp only [List.mem_cons, List.not_mem_nil, or_false] at hk
  obtain rfl | rfl | rfl := hk
  · exact number 0 ⟨0⟩ rfl rfl
  · exact number 6 ⟨1⟩ rfl rfl
  · exact double

def Extent.byDouble : Extent :=
  listed [.single ⟨2⟩, .span ⟨0⟩ (some ⟨2⟩) ⟨1⟩, .toEnd (some ⟨2⟩) none]

/-- With the double two, the range is resolved to what is written for it. -/
theorem Extent.resolve_byTwo :
    classify Table.byDouble ⟨3⟩ = .ok byDouble ∧
    (∀ k ∈ byDouble.handles, (Store.ofDouble 2).HasNumber Table.byDouble k ∧
      (Store.ofDouble 2).IsWhole Table.byDouble k) ∧
    ∃ x text, byDouble.expression Table.byDouble = .ok x ∧
      Writer.standard.extent Table.byDouble byDouble "a.ncols()" = .ok text ∧
      text.selection? (ScalarScope.ofDouble 2).indices "mateq::kernels" =
        some (x.eval ((Store.ofDouble 2).cast Table.byDouble) 5) ∧
      (byDouble.resolve 5 ((Store.ofDouble 2).index Table.byDouble)).toOption =
        (x.eval ((Store.ofDouble 2).cast Table.byDouble) 5).toOption ∧
      (byDouble.resolve 5 ((Store.ofDouble 2).index Table.byDouble)).toOption =
        some (.listed [2, 0, 2, 4, 6, 2, 3, 4]) := by
  have operands : ∀ k ∈ byDouble.handles, k ∈ [(⟨0⟩ : Handle), ⟨1⟩, ⟨2⟩] := by decide
  have numbers : ∀ k ∈ byDouble.handles, (Store.ofDouble 2).HasNumber Table.byDouble k := fun k hk =>
    (Table.operand_byDouble 2 k (operands k hk)).1
  have whole : ∀ k ∈ byDouble.handles, (Store.ofDouble 2).IsWhole Table.byDouble k := by
    intro k hk x double read
    obtain rfl : k = ⟨2⟩ := by
      have := operands k hk
      simp only [List.mem_cons, List.not_mem_nil, or_false] at this
      obtain rfl | rfl | rfl := this
      · cases double
      · cases double
      · rfl
    obtain rfl := Option.some.inj read
    decide +kernel
  have classified : classify Table.byDouble ⟨3⟩ = .ok byDouble := rfl
  obtain ⟨x, made, written, same, -, -⟩ := resolve_eq_written_iff classified numbers 5
  obtain ⟨text, rendered, selects, -⟩ := written .standard (.ofDouble 2) "a.ncols()"
    ⟨["mateq", "kernels"], by decide⟩ (fun k hk => (Table.operand_byDouble 2 k (operands k hk)).2)
    ⟨by decide, rfl⟩
  exact ⟨classified, fun k hk => ⟨numbers k hk, whole k hk⟩, x, text, made, rendered, selects, same whole,
    by decide +kernel⟩

/-- With the double one and a half, which is an index on its own, the text selects the index one, and
nothing is resolved. -/
theorem Extent.resolve_oneAndAHalf :
    let e := block (.value ⟨2⟩) (.past ⟨2⟩)
    classify Table.byDouble ⟨2⟩ = .ok e ∧ (Store.ofDouble 1.5).HasNumber Table.byDouble ⟨2⟩ ∧
    (e.resolve 5 ((Store.ofDouble 1.5).index Table.byDouble)).toOption = none ∧
    ∃ text, Writer.standard.extent Table.byDouble e "a.ncols()" = .ok text ∧
      text.selection? (ScalarScope.ofDouble 1.5).indices "mateq::kernels" = some (.ok (.block 1 2)) := by
  intro e
  refine ⟨rfl, (Table.operand_byDouble 1.5 ⟨2⟩ (by simp)).1, by decide +kernel,
    .block "mateq::kernels::to_index((x as i64))?" "mateq::kernels::to_index_after((x as i64))?", rfl, ?_⟩
  rfl

end MatrixCode
