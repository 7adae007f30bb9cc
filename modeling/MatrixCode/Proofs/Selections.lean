import MatrixCode.Proofs.IndexTexts
import MatrixCode.Proofs.Spelling

/-!
Resolving a range and evaluating what is written for it select the same indices, in the same order, or fail
with the same fault. The index expression takes its own ways with literals: an index stands as a numeral,
also one past a literal, and only what is no index is left to a kernel to refuse. This keeps the meaning
whatever values the variables have. The text of an index expression means the same as the expression where
the texts of its variables and of the length stand for their values.
-/

namespace MatrixCode

namespace IndexOperand

def eval (value : Handle → Int64) : IndexOperand → Int64
  | word x => x
  | .variable h => value h

end IndexOperand

namespace Position

def eval (value : Handle → Int64) (size : Nat) : Position → Except Fault Nat
  | numeral n => return n.toInt.toNat
  | length => return size
  | checked o => Progression.toIndex (o.eval value)
  | checkedAfter o => Progression.toIndexAfter (o.eval value)

end Position

namespace Chunk

def eval (value : Handle → Int64) (size : Nat) : Chunk → Except Fault (List Nat)
  | single p => return [← p.eval value size]
  | sequence first step last => Progression.sequence (first.eval value) (step.eval value) (last.eval value)
  | sequenceTo first step => Progression.sequenceTo (first.eval value) (step.eval value) size

end Chunk

namespace IndexExpression

/-- What an index expression selects along a dimension of the given size. -/
def eval (value : Handle → Int64) (size : Nat) : IndexExpression → Except Fault Selection
  | interval start stop => return .block (← start.eval value size) (← stop.eval value size)
  | joined chunks => return .listed (← chunks.mapM (Chunk.eval value size)).flatten

end IndexExpression

/-- An integer whose name does not give its value. -/
def Table.IsUnknown (t : Table) (h : Handle) : Prop :=
  ∃ v, t.get? h = some v ∧ v.kind = .integer ∧ v.literalInteger? = none

/-- Integer literals have the values that they name. -/
def Table.Valuation (t : Table) (value : Handle → Int64) : Prop :=
  ∀ h v x, t.get? h = some v → v.literalInteger? = some x → value h = x

section Proper

variable (t : Table)

/-- Literals have been replaced by their values. -/
def IndexOperand.Proper : IndexOperand → Prop
  | word _ => True
  | .variable h => t.IsUnknown h

/-- Numerals are not negative. -/
def Position.Proper : Position → Prop
  | numeral n => 0 ≤ n
  | length => True
  | checked o | checkedAfter o => o.Proper t

def Chunk.Proper : Chunk → Prop
  | single p => p.Proper t
  | sequence first step last => first.Proper t ∧ step.Proper t ∧ last.Proper t
  | sequenceTo first step => first.Proper t ∧ step.Proper t

/-- No interval starts at the length. -/
def IndexExpression.Proper : IndexExpression → Prop
  | interval start stop => start ≠ .length ∧ start.Proper t ∧ stop.Proper t
  | joined chunks => ∀ c ∈ chunks, c.Proper t

end Proper

section Expressions

variable {t : Table} {value : Handle → Int64} {size : Nat}

theorem IndexOperand.ofHandle_spec (valuation : t.Valuation value) {h : Handle}
    (kind : t.kind? h = some .integer) :
    ∃ o, ofHandle t h = .ok o ∧ o.Proper t ∧ o.eval value = value h := by
  obtain ⟨v, hv, hk⟩ : ∃ v, t.get? h = some v ∧ v.kind = .integer := by simpa [Table.kind?] using kind
  refine ⟨_, ofHandle_eq hv, ?_⟩
  cases hx : v.literalInteger? with
  | some x => exact ⟨trivial, (valuation h v x hv hx).symm⟩
  | none => exact ⟨⟨v, hv, hk, hx⟩, rfl⟩

theorem IndexOperand.ofOption_spec (valuation : t.Valuation value) (default : Int64) (o : Option Handle)
    (kinds : ∀ h ∈ o.toList, t.kind? h = some .integer) :
    ∃ x, ofOption t default o = .ok x ∧ x.Proper t ∧
      Part.valueOr (fun h => .ok (value h)) default o = .ok (x.eval value) := by
  cases o with
  | none => exact ⟨.word default, rfl, trivial, rfl⟩
  | some h =>
      obtain ⟨x, made, proper, same⟩ := ofHandle_spec valuation (kinds h (by simp))
      exact ⟨x, made, proper, congrArg Except.ok same.symm⟩

namespace Position

theorem eval_numeral {n : Int64} (positive : 0 ≤ n) :
    (numeral n).eval value size = Progression.toIndex n := by
  have nonneg : 0 ≤ n.toInt := Int64.le_iff_toInt_le.mp positive
  rw [Progression.toIndex, if_pos nonneg]
  rfl

theorem ofHandle_spec (valuation : t.Valuation value) (size : Nat) {h : Handle}
    (kind : t.kind? h = some .integer) :
    ∃ p, ofHandle t h = .ok p ∧ p.Proper t ∧ p ≠ .length ∧
      p.eval value size = Progression.toIndex (value h) := by
  obtain ⟨o, made, proper, same⟩ := IndexOperand.ofHandle_spec valuation kind
  rw [← same]
  obtain ⟨x, rfl, positive, placed⟩ | placed := ofHandle_cases made
  · exact ⟨.numeral x, placed, positive, nofun, eval_numeral positive⟩
  · exact ⟨.checked o, placed, proper, nofun, rfl⟩

theorem afterHandle_spec (valuation : t.Valuation value) (size : Nat) {h : Handle}
    (kind : t.kind? h = some .integer) :
    ∃ p, afterHandle t h = .ok p ∧ p.Proper t ∧ p ≠ .length ∧
      p.eval value size = Progression.toIndexAfter (value h) := by
  obtain ⟨o, made, proper, same⟩ := IndexOperand.ofHandle_spec valuation kind
  rw [← same]
  obtain ⟨x, next, rfl, after, positive, placed⟩ | placed := afterHandle_cases made
  · refine ⟨.numeral next, placed, positive, nofun, ?_⟩
    rw [eval_numeral positive, IndexOperand.eval, Progression.toIndexAfter, after]
  · exact ⟨.checkedAfter o, placed, proper, nofun, rfl⟩

theorem ofEndpoint_spec (valuation : t.Valuation value) (size : Nat) {e : Endpoint}
    (kinds : ∀ h ∈ e.handles, t.kind? h = some .integer) :
    ∃ p, ofEndpoint t e = .ok p ∧ p.Proper t ∧ (e ≠ .length → p ≠ .length) ∧
      e.resolve size (fun h => .ok (value h)) = Extent.checked (p.eval value size) := by
  cases e with
  | zero => exact ⟨.numeral 0, rfl, show (0 : Int64) ≤ 0 by decide, nofun, rfl⟩
  | one => exact ⟨.numeral 1, rfl, show (0 : Int64) ≤ 1 by decide, nofun, rfl⟩
  | length => exact ⟨.length, rfl, trivial, fun other => absurd rfl other, rfl⟩
  | value h =>
      obtain ⟨p, made, proper, first, same⟩ :=
        ofHandle_spec valuation size (kinds h (by simp [Endpoint.handles]))
      exact ⟨p, made, proper, fun _ => first, congrArg Extent.checked same.symm⟩
  | past h =>
      obtain ⟨p, made, proper, first, same⟩ :=
        afterHandle_spec valuation size (kinds h (by simp [Endpoint.handles]))
      exact ⟨p, made, proper, fun _ => first, congrArg Extent.checked same.symm⟩

end Position

namespace Chunk

theorem ofPart_spec (valuation : t.Valuation value) (size : Nat) {p : Part}
    (kinds : ∀ h ∈ p.handles, t.kind? h = some .integer) :
    ∃ c, ofPart t p = .ok c ∧ c.Proper t ∧
      p.resolve size (fun h => .ok (value h)) = Extent.checked (c.eval value size) := by
  cases p with
  | single h =>
      obtain ⟨p, made, proper, -, same⟩ :=
        Position.ofHandle_spec valuation size (kinds h (by simp [Part.handles]))
      refine ⟨.single p, by rw [ofPart, made]; rfl, proper, ?_⟩
      rw [Part.resolve, eval, same]
      change (do return [← Extent.checked (Progression.toIndex (value h))] : Outcome (List Nat)) = _
      cases Progression.toIndex (value h) <;> rfl
  | span first step last =>
      obtain ⟨x, hx, proper, first⟩ :=
        IndexOperand.ofHandle_spec valuation (kinds first (by simp [Part.handles]))
      obtain ⟨y, hy, proper', step⟩ := IndexOperand.ofOption_spec valuation 1 step
        fun h hh => kinds h (by simp_all [Part.handles])
      obtain ⟨z, hz, proper'', last⟩ :=
        IndexOperand.ofHandle_spec valuation (kinds last (by simp [Part.handles]))
      refine ⟨.sequence x y z, by rw [ofPart, hx, hy, hz]; rfl, ⟨proper, proper', proper''⟩, ?_⟩
      rw [Part.resolve, step, eval, first, last]
      rfl
  | toEnd first step =>
      obtain ⟨x, hx, proper, first⟩ := IndexOperand.ofOption_spec valuation 0 first
        fun h hh => kinds h (by simp_all [Part.handles])
      obtain ⟨y, hy, proper', step⟩ := IndexOperand.ofOption_spec valuation 1 step
        fun h hh => kinds h (by simp_all [Part.handles])
      refine ⟨.sequenceTo x y, by rw [ofPart, hx, hy]; rfl, ⟨proper, proper'⟩, ?_⟩
      rw [Part.resolve, first, step]
      rfl

theorem mapM_ofPart_spec (valuation : t.Valuation value) (size : Nat) (ps : List Part)
    (kinds : ∀ p ∈ ps, ∀ h ∈ p.handles, t.kind? h = some .integer) :
    ∃ cs, ps.mapM (ofPart t) = .ok cs ∧ (∀ c ∈ cs, c.Proper t) ∧
      ps.mapM (Part.resolve size fun h => .ok (value h)) = Extent.checked (cs.mapM (eval value size)) := by
  induction ps with
  | nil => exact ⟨[], rfl, nofun, rfl⟩
  | cons p ps ih =>
      obtain ⟨c, made, proper, first⟩ := ofPart_spec valuation size (kinds p (by simp))
      obtain ⟨cs, others, propers, rest⟩ := ih fun q hq => kinds q (by simp [hq])
      refine ⟨c :: cs, by rw [List.mapM_cons, made, others]; rfl, List.forall_mem_cons.mpr ⟨proper, propers⟩,
        ?_⟩
      rw [List.mapM_cons, List.mapM_cons, first, rest]
      cases c.eval value size with
      | error fault => rfl
      | ok is => cases cs.mapM (eval value size) <;> rfl

end Chunk

namespace Extent

theorem start_ne_length_of_ofRange {r : IndexRange} {start stop : Endpoint}
    (found : (ofRange t r).toOption = some (block start stop)) : start ≠ .length := by
  cases r with
  | list items | union ranges => simp [ofRange] at found
  | span first step last =>
      simp only [ofRange, Outcome.toOption_bind, Option.bind_eq_some_iff] at found
      obtain ⟨unit, -, found⟩ := found
      cases unit with
      | false => simp at found
      | true =>
          obtain ⟨rfl, -⟩ : .value first = start ∧ _ := by simpa using found
          exact Endpoint.noConfusion
  | toEnd first step =>
      simp only [ofRange, Outcome.toOption_bind, Option.bind_eq_some_iff] at found
      obtain ⟨unit, -, found⟩ := found
      cases unit with
      | false => simp at found
      | true =>
          obtain ⟨rfl, -⟩ : first.elim .zero .value = start ∧ _ := by simpa using found
          cases first <;> exact Endpoint.noConfusion

theorem start_ne_length {h : Handle} {start stop : Endpoint}
    (found : (classify t h).toOption = some (block start stop)) : start ≠ .length := by
  simp only [classify, Outcome.toOption_bind, Table.toOption_lookup, Option.bind_eq_some_iff] at found
  obtain ⟨v, -, found⟩ := found
  cases hc : v.content with
  | integer | double =>
      obtain ⟨rfl, -⟩ : .value h = start ∧ _ := by simpa [hc] using found
      exact Endpoint.noConfusion
  | matrix => simp [hc] at found
  | sequence r => exact start_ne_length_of_ofRange (by simpa [hc] using found)

/-- The index expression of a range selects what the range is resolved to. -/
theorem expression_spec (valuation : t.Valuation value) (size : Nat) {h : Handle} {e : Extent}
    (classified : classify t h = .ok e) (kinds : ∀ k ∈ e.handles, t.kind? k = some .integer) :
    ∃ x, e.expression t = .ok x ∧ x.Proper t ∧
      e.resolve size (fun k => .ok (value k)) = checked (x.eval value size) := by
  cases e with
  | block start stop =>
      have first := start_ne_length (Outcome.toOption_eq_some.mpr classified)
      obtain ⟨p, hp, proper, begins, here⟩ := Position.ofEndpoint_spec valuation size
        fun k hk => kinds k (List.mem_append_left _ hk)
      obtain ⟨q, hq, proper', -, there⟩ := Position.ofEndpoint_spec valuation size
        fun k hk => kinds k (List.mem_append_right _ hk)
      refine ⟨.interval p q, by rw [expression, hp, hq]; rfl, ⟨begins first, proper, proper'⟩, ?_⟩
      rw [resolve, here, there, IndexExpression.eval]
      cases p.eval value size with
      | error fault => rfl
      | ok i => cases q.eval value size <;> rfl
  | listed parts =>
      obtain ⟨cs, made, propers, resolved⟩ := Chunk.mapM_ofPart_spec valuation size parts
        fun p hp k hk => kinds k (List.mem_flatMap.mpr ⟨p, hp, hk⟩)
      refine ⟨.joined cs, by rw [expression, made]; rfl, propers, ?_⟩
      rw [resolve, resolved, IndexExpression.eval]
      cases cs.mapM (Chunk.eval value size) <;> rfl

end Extent
end Expressions

/-- The kernels are at a path, and the texts of integer variables and of the length stand for their
values. -/
structure IndexStyle.Means (style : IndexStyle) (scope : IndexScope) (t : Table) (value : Handle → Int64)
    (size : Nat) : Prop where
  kernels : ∃ words, Grammar.IsPath style.kernels words
  operand : ∀ h, t.IsUnknown h → ∃ text, style.operand h = .ok text ∧ scope.Reads text (value h)
  length : scope.Places style.kernels style.length (.ok size)

section Texts

variable {style : IndexStyle} {scope : IndexScope} {t : Table} {value : Handle → Int64} {size : Nat}

theorem IndexOperand.Proper.reads {o : IndexOperand} (proper : o.Proper t)
    (means : style.Means scope t value size) :
    ∃ text, style.operandText o = .ok text ∧ scope.Reads text (o.eval value) := by
  cases o with
  | word x => exact ⟨Word.text x, rfl, IndexScope.reads_text x⟩
  | «variable» h => exact means.operand h proper

/-- Only the length may have dots outside brackets. -/
theorem Position.Proper.places {p : Position} (proper : p.Proper t)
    (means : style.Means scope t value size) :
    ∃ text, style.position p = .ok text ∧ scope.Places style.kernels text (p.eval value size) ∧
      (p ≠ .length → scope.Starts style.kernels text (p.eval value size)) := by
  obtain ⟨words, path⟩ := means.kernels
  cases p with
  | numeral n =>
      have starts : scope.Starts style.kernels (Word.text n) _ := IndexScope.starts_text proper
      rw [eval_numeral proper]
      exact ⟨_, rfl, starts.toPlaces, fun _ => starts⟩
  | length => exact ⟨_, rfl, means.length, fun other => absurd rfl other⟩
  | checked o =>
      obtain ⟨text, written, reads⟩ := IndexOperand.Proper.reads proper means
      have starts := IndexScope.starts_toIndex path reads
      exact ⟨_, by rw [IndexStyle.position, written]; rfl, starts.toPlaces, fun _ => starts⟩
  | checkedAfter o =>
      obtain ⟨text, written, reads⟩ := IndexOperand.Proper.reads proper means
      have starts := IndexScope.starts_toIndexAfter path reads
      exact ⟨_, by rw [IndexStyle.position, written]; rfl, starts.toPlaces, fun _ => starts⟩

theorem Chunk.Proper.lists {c : Chunk} (proper : c.Proper t) (means : style.Means scope t value size) :
    ∃ text, style.chunk c = .ok text ∧ scope.Lists style.kernels text (c.eval value size) := by
  obtain ⟨words, path⟩ := means.kernels
  cases c with
  | single p =>
      obtain ⟨text, written, places, -⟩ := Position.Proper.places proper means
      exact ⟨_, by rw [IndexStyle.chunk, written]; rfl, IndexScope.lists_vec places⟩
  | sequence first step last =>
      obtain ⟨a, ha, first⟩ := proper.1.reads means
      obtain ⟨b, hb, step⟩ := proper.2.1.reads means
      obtain ⟨c, hc, last⟩ := proper.2.2.reads means
      exact ⟨_, by rw [IndexStyle.chunk, ha, hb, hc]; rfl, IndexScope.lists_sequence path first step last⟩
  | sequenceTo first step =>
      obtain ⟨a, ha, first⟩ := proper.1.reads means
      obtain ⟨b, hb, step⟩ := proper.2.reads means
      exact ⟨_, by rw [IndexStyle.chunk, ha, hb]; rfl,
        IndexScope.lists_sequenceTo path first step means.length⟩

theorem Chunk.lists_all {cs : List Chunk} (proper : ∀ c ∈ cs, c.Proper t)
    (means : style.Means scope t value size) :
    ∃ texts, cs.mapM style.chunk = .ok texts ∧
      List.Forall₂ (scope.Lists style.kernels) texts (cs.map (eval value size)) := by
  induction cs with
  | nil => exact ⟨[], rfl, .nil⟩
  | cons c cs ih =>
      obtain ⟨first, others⟩ := List.forall_mem_cons.mp proper
      obtain ⟨text, written, lists⟩ := first.lists means
      obtain ⟨texts, rest, each⟩ := ih others
      exact ⟨text :: texts, by rw [List.mapM_cons, written, rest]; rfl, .cons lists each⟩

/-- A list of indices means the same whether or not it is joined. -/
theorem IndexStyle.list?_joined {chunks : List Chunk} {texts : List String}
    {values : List (Except Fault (List Nat))} (written : chunks.mapM style.chunk = .ok texts)
    (each : List.Forall₂ (scope.Lists style.kernels) texts values) :
    ∃ text, style.joined chunks = .ok text ∧
      scope.list? style.kernels text.toList = some (List.flatten <$> values.mapM id) := by
  have concat := IndexScope.list?_concat each
  rw [joined, written]
  cases each with
  | nil => exact ⟨_, rfl, concat⟩
  | @cons text is texts values first others =>
      cases others with
      | cons second others => exact ⟨_, rfl, concat⟩
      | nil =>
          refine ⟨_, rfl, ?_⟩
          split
          · exact concat
          · next other =>
              rw [first.alone (by simpa using other)]
              cases is <;> simp

/-- The text of an index expression selects what the expression does, as it stands and as a list. -/
theorem Extent.render_spec {e : Extent} {x : IndexExpression} (made : e.expression t = .ok x)
    (proper : x.Proper t) (means : style.Means scope t value size) :
    ∃ text, e.render t style = .ok text ∧
      text.selection? scope style.kernels = some (x.eval value size) ∧
      scope.list? style.kernels text.asList.toList = some ((x.eval value size).map Selection.indices) := by
  rw [render, made]
  cases x with
  | interval p q =>
      obtain ⟨a, ha, -, starts⟩ := proper.2.1.places means
      obtain ⟨b, hb, places, -⟩ := proper.2.2.places means
      have first := starts proper.1
      refine ⟨.block a b, ?_, ?_, ?_⟩
      · change (do return ExtentText.block (← style.position p) (← style.position q) : Outcome ExtentText) = _
        rw [ha, hb]
        rfl
      · rw [ExtentText.selection?, first.value, places.value]
        rfl
      · rw [IndexScope.list?_collect first places, IndexExpression.eval]
        cases p.eval value size with
        | error fault => rfl
        | ok i => cases q.eval value size <;> rfl
  | joined cs =>
      obtain ⟨texts, written, each⟩ := Chunk.lists_all proper means
      obtain ⟨text, joined, meant⟩ := IndexStyle.list?_joined written each
      have same : (cs.map (Chunk.eval value size)).mapM id = cs.mapM (Chunk.eval value size) := by
        simp [List.mapM_map]
      rw [same] at meant
      refine ⟨.indices text, ?_, ?_, ?_⟩
      · change (do return ExtentText.indices (← style.joined cs) : Outcome ExtentText) = _
        rw [joined]
        rfl
      · rw [ExtentText.selection?, meant, IndexExpression.eval]
        cases cs.mapM (Chunk.eval value size) <;> rfl
      · rw [ExtentText.asList, meant, IndexExpression.eval]
        cases cs.mapM (Chunk.eval value size) <;> rfl

end Texts

/-- A range selects the same indices, or fails with the same fault, whether it is resolved or what is
written for it is evaluated, as it stands and as a list. -/
theorem Extent.resolve_eq_eval {t : Table} {value : Handle → Int64} (valuation : t.Valuation value) {h : Handle}
    {e : Extent} (classified : classify t h = .ok e) (kinds : ∀ k ∈ e.handles, t.kind? k = some .integer)
    (size : Nat) :
    ∃ x, e.expression t = .ok x ∧
      e.resolve size (fun k => .ok (value k)) = (x.eval value size).mapError (.ofFault "extent") ∧
      ∀ (style : IndexStyle) (scope : IndexScope), style.Means scope t value size →
        ∃ text, e.render t style = .ok text ∧
          text.selection? scope style.kernels = some (x.eval value size) ∧
          scope.list? style.kernels text.asList.toList = some ((x.eval value size).map Selection.indices) := by
  obtain ⟨x, made, proper, resolved⟩ := expression_spec valuation size classified kinds
  exact ⟨x, made, resolved, fun style scope means => render_spec made proper means⟩

theorem Variable.literalInteger?_integerLiteral (x : Int64) :
    (integerLiteral x).literalInteger? = some x := by
  have blank : ∀ c ∈ (Word.text x).toList, Blank.isBlank c = false := fun c hc =>
    (IndexScope.isNumeral_of_mem_text hc).isBlank_eq_false
  have line : '\n' ∉ (Word.text x).toList := fun hc => absurd (blank _ hc) (by decide)
  have body : LiteralName.body? (integerLiteral x).name = some (Word.text x).toList :=
    LiteralName.body?_wrap_integer line
  have kind : (integerLiteral x).kind = .integer := rfl
  rw [literalInteger?, if_pos kind, body, Option.bind_some, Blank.trim_eq_self blank, Reader.word?_text]

/-- Zero, one, an integer `n`, five and minus two, and the range of `n`, five, the indices from `n` down to one,
and every fifth index. -/
def Table.mixedRange : Table where
  entries := #[.integerLiteral 0, .integerLiteral 1, .named "n" .integer, .integerLiteral 5,
    .integerLiteral (-2), .named "r" (.sequence (.union
      [.list [⟨2⟩, ⟨3⟩], .span ⟨2⟩ (some ⟨4⟩) ⟨1⟩, .toEnd none (some ⟨3⟩)]))]
  literals := []

/-- Where `n` is given and a matrix has nine columns. -/
def IndexScope.ofInteger (n : Int64) : IndexScope where
  integer text := if text = "n" then some n else none
  length text := if text = "a.ncols()" then some 9 else none

def Table.mixedValues (n : Int64) (h : Handle) : Int64 := [0, 1, n, 5, -2].getD h.index 0

theorem Table.get?_mixedRange (n : Int64) {h : Handle} {v : Variable} (found : mixedRange.get? h = some v) :
    v = .integerLiteral (mixedValues n h) ∨ (h = ⟨2⟩ ∧ v = .named "n" .integer) ∨ v.kind = .sequence := by
  obtain ⟨k⟩ := h
  have bound : k < 6 := (Array.getElem?_eq_some_iff.mp found).1
  interval_cases k
  all_goals obtain rfl := Option.some.inj found
  · exact .inl rfl
  · exact .inl rfl
  · exact .inr (.inl ⟨rfl, rfl⟩)
  · exact .inl rfl
  · exact .inl rfl
  · exact .inr (.inr rfl)

theorem Table.valuation_mixedRange (n : Int64) : mixedRange.Valuation (mixedValues n) := by
  intro h v x found literal
  obtain rfl | ⟨rfl, rfl⟩ | kind := get?_mixedRange n found
  · rw [Variable.literalInteger?_integerLiteral] at literal
    exact Option.some.inj literal
  · cases literal
  · simp [Variable.literalInteger?, kind] at literal

theorem Table.means_mixedRange (n : Int64) :
    (Writer.standard.indexStyle mixedRange "a.ncols()").Means (.ofInteger n) mixedRange (mixedValues n) 9 where
  kernels := ⟨["mateq", "kernels"], by decide⟩
  operand := by
    rintro h ⟨v, found, kind, literal⟩
    obtain rfl | ⟨rfl, rfl⟩ | other := get?_mixedRange n found
    · simp [Variable.literalInteger?_integerLiteral] at literal
    · exact ⟨"n", by decide, by decide, rfl⟩
    · exact absurd (other.symm.trans kind) (by decide)
  length := ⟨by decide, rfl⟩

def Extent.mixedRange : Extent :=
  listed [.single ⟨2⟩, .single ⟨3⟩, .span ⟨2⟩ (some ⟨4⟩) ⟨1⟩, .toEnd none (some ⟨3⟩)]

theorem Extent.resolve_mixedRange :
    classify Table.mixedRange ⟨5⟩ = .ok mixedRange ∧
    (∀ k ∈ mixedRange.handles, Table.mixedRange.kind? k = some .integer) ∧
    ∃ x, mixedRange.expression Table.mixedRange = .ok x ∧
      mixedRange.resolve 9 (fun k => .ok (Table.mixedValues 7 k)) =
        (x.eval (Table.mixedValues 7) 9).mapError (.ofFault "extent") ∧
      ∃ text, Writer.standard.extent Table.mixedRange mixedRange "a.ncols()" = .ok text ∧
        text.selection? (.ofInteger 7) "mateq::kernels" = some (x.eval (Table.mixedValues 7) 9) ∧
        (IndexScope.ofInteger 7).list? "mateq::kernels" text.asList.toList =
          some ((x.eval (Table.mixedValues 7) 9).map Selection.indices) := by
  have classified : classify Table.mixedRange ⟨5⟩ = .ok mixedRange := rfl
  have kinds : ∀ k ∈ mixedRange.handles, Table.mixedRange.kind? k = some .integer := by decide
  obtain ⟨x, made, resolved, written⟩ :=
    resolve_eq_eval (Table.valuation_mixedRange 7) classified kinds 9
  exact ⟨classified, kinds, x, made, resolved, written _ _ (Table.means_mixedRange 7)⟩

end MatrixCode
