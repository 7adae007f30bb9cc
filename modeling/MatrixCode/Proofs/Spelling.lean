import MatrixCode.Proofs.Readiness

/-!
Spelling never fails. Operands, phrases and index expressions are made of variables, and when these
are in the table, each of them has a text.
-/

namespace MatrixCode

/-- The computation does not fail. -/
abbrev Sure {α : Type} (x : Outcome α) : Prop := FailsOnly (fun _ => False) x

theorem Sure.exists_ok {α : Type} {x : Outcome α} (sure : Sure x) : ∃ a, x = .ok a := by
  cases x with
  | ok a => exact ⟨a, rfl⟩
  | error e => exact (sure e rfl).elim

namespace Writer

variable {w : Writer} {t : Table} {h : Handle} {context : Nat}

theorem sure_scalar (found : (t.get? h).isSome) : Sure (w.scalar t h context) := by
  obtain ⟨v, hv⟩ := Option.isSome_iff_exists.mp found
  simp only [scalar, Table.fetch, hv, failsOnly_bind, failsOnly_ok, Except.ok.injEq, forall_eq', true_and]
  split <;> exact failsOnly_pure _

theorem sure_double (found : (t.get? h).isSome) : Sure (w.double t h context) := by
  obtain ⟨v, hv⟩ := Option.isSome_iff_exists.mp found
  simp only [double, Table.fetch, hv, failsOnly_bind, failsOnly_ok, Except.ok.injEq, forall_eq', true_and]
  refine failsOnly_ite.mpr ⟨fun _ => sure_scalar found, fun _ => ?_⟩
  split
  · exact failsOnly_pure _
  · exact failsOnly_map.mpr (sure_scalar found)

theorem sure_operand (wide : Bool) (found : (t.get? h).isSome) : Sure (w.operand t wide h context) := by
  cases wide with
  | true => exact sure_double found
  | false => exact sure_scalar found

theorem sure_index (found : (t.get? h).isSome) : Sure (w.index t h) := by
  obtain ⟨v, hv⟩ := Option.isSome_iff_exists.mp found
  simp [index, Table.fetch, hv, sure_scalar found]

theorem sure_reference (found : (t.get? h).isSome) : Sure (w.reference t h) := by
  obtain ⟨v, hv⟩ := Option.isSome_iff_exists.mp found
  simp only [reference, Table.fetch, hv, failsOnly_bind, failsOnly_ok, Except.ok.injEq, forall_eq',
    true_and]
  split <;> exact failsOnly_pure _

theorem sure_mutable (found : (t.get? h).isSome) : Sure (w.mutable t h) := by
  obtain ⟨v, hv⟩ := Option.isSome_iff_exists.mp found
  simp [mutable, Table.fetch, hv]

theorem sure_receiver (found : (t.get? h).isSome) : Sure (receiver t h) := by
  obtain ⟨v, hv⟩ := Option.isSome_iff_exists.mp found
  simp [receiver, Table.fetch, hv]

theorem sure_leftSide (found : (t.get? h).isSome) : Sure (w.leftSide t h) := by
  obtain ⟨v, hv⟩ := Option.isSome_iff_exists.mp found
  simp [leftSide, Table.fetch, hv]

end Writer

/-- The operands of a phrase. -/
def Phrase.handles : Phrase → List Handle
  | between _ _ _ a b | integerQuotient a b => [a, b]
  | negation _ a | alone _ a | reciprocal a | integerAbs a | library _ a => [a]
  | function _ arguments => arguments

/-- The number of operands that an operation on scalars takes. -/
def Primitive.arity (p : Primitive) : Nat := if p.isBinary then 2 else 1

/-- The number of operands that its text shows. -/
def Primitive.written (p : Primitive) : Nat := if p = .normP then 1 else p.arity

namespace Phrase

variable {a b : Handle} {p : Primitive} {signature : Signature} {phrase : Phrase} {i : Instruction}

theorem handles_of_unary? (h : unary? a p signature = some phrase) :
    phrase.handles = [a] ∧ p.written = 1 := by
  unfold unary? at h
  split at h <;> cases h <;> exact ⟨rfl, rfl⟩

theorem handles_of_binary? (h : binary? a b p signature = some phrase) :
    phrase.handles = [a, b] ∧ p.written = 2 := by
  unfold binary? at h
  split at h <;> cases h <;> exact ⟨rfl, rfl⟩

/-- A phrase is about the first operand, or about the first two. -/
theorem cases_ofInstruction? (h : ofInstruction? i = some phrase) :
    (∃ a rest, i.inputs = a :: rest ∧ unary? a i.primitive i.signature = some phrase) ∨
      ∃ a b rest, i.inputs = a :: b :: rest ∧ binary? a b i.primitive i.signature = some phrase := by
  unfold ofInstruction? at h
  split at h
  · cases h
  · next a inputs => exact .inl ⟨a, [], inputs, h⟩
  · next a b rest inputs =>
      rw [Option.orElse_eq_orElse, Option.orElse_eq_or, Option.or_eq_some_iff] at h
      exact h.imp (fun first => ⟨a, b :: rest, inputs, first⟩) fun second => ⟨a, b, rest, inputs, second.2⟩

/-- A phrase is made of the operands that its operation shows. -/
theorem handles_eq_take (h : ofInstruction? i = some phrase) :
    phrase.handles = i.inputs.take i.primitive.written := by
  obtain ⟨a, rest, inputs, first⟩ | ⟨a, b, rest, inputs, second⟩ := cases_ofInstruction? h
  · obtain ⟨handles, written⟩ := handles_of_unary? first
    rw [handles, written, inputs]
    rfl
  · obtain ⟨handles, written⟩ := handles_of_binary? second
    rw [handles, written, inputs]
    rfl

theorem handles_of_ofInstruction? (h : ofInstruction? i = some phrase) : phrase.handles ⊆ i.inputs := by
  rw [handles_eq_take h]
  exact List.take_subset _ _

end Phrase

namespace Writer

variable {w : Writer} {t : Table}

theorem sure_phrase {phrase : Phrase} (found : ∀ h ∈ phrase.handles, (t.get? h).isSome) :
    Sure (w.phrase t phrase) := by
  cases phrase with
  | between sign level wide a b =>
      have ha : (t.get? a).isSome := found a (by simp [Phrase.handles])
      have hb : (t.get? b).isSome := found b (by simp [Phrase.handles])
      simp [Writer.phrase, sure_operand wide ha, sure_operand wide hb]
  | negation wide a | alone wide a =>
      simp [Writer.phrase, sure_operand wide (found a (by simp [Phrase.handles]))]
  | reciprocal a | library name a =>
      simp [Writer.phrase, sure_double (found a (by simp [Phrase.handles]))]
  | integerQuotient a b =>
      simp [Writer.phrase, sure_scalar (found a (by simp [Phrase.handles])),
        sure_scalar (found b (by simp [Phrase.handles]))]
  | integerAbs a => simp [Writer.phrase, sure_scalar (found a (by simp [Phrase.handles]))]
  | function name arguments =>
      have each : Sure (arguments.mapM (w.double t · 0)) :=
        failsOnly_mapM fun h hh => sure_double (found h hh)
      simp [Writer.phrase, each]

theorem areScalars_eq {hs : List Handle} (found : ∀ h ∈ hs, (t.get? h).isSome) :
    areScalars t hs = .ok (hs.all fun h => (t.kind? h).any Kind.isScalar) := by
  induction hs with
  | nil => rfl
  | cons h hs ih =>
      obtain ⟨head, tail⟩ := List.forall_mem_cons.mp found
      obtain ⟨v, hv⟩ := Option.isSome_iff_exists.mp head
      have kind : t.kind? h = some v.kind := by simp [Table.kind?, hv]
      rw [areScalars, Table.fetchKind_eq_ok kind, ih tail, List.all_cons, kind, Option.any_some]
      change (if v.kind.isScalar then _ else _ : Outcome Bool) = _
      cases v.kind.isScalar <;> rfl

theorem sure_scalarExpression {i : Instruction} (found : ∀ h ∈ i.inputs, (t.get? h).isSome) :
    Sure (w.scalarExpression t i) := by
  rw [scalarExpression, areScalars_eq found]
  refine failsOnly_bind.mpr ⟨failsOnly_ok _, fun _ _ => failsOnly_ite.mpr ⟨fun _ => ?_, fun _ => failsOnly_pure _⟩⟩
  cases hp : Phrase.ofInstruction? i with
  | none => exact failsOnly_pure _
  | some phrase =>
      exact failsOnly_map.mpr (sure_phrase fun h hh => found h (Phrase.handles_of_ofInstruction? hp hh))

/-- Folding by writing never fails. -/
theorem sure_fold {i : Instruction} (covered : i.Covered t) : Sure (w.fold t i) := by
  refine failsOnly_bind.mpr ⟨failsOnly_of_isSome (Instruction.isSome_isScalarTask covered), fun _ _ => ?_⟩
  exact failsOnly_ite.mpr ⟨fun _ => sure_scalarExpression fun _ => covered.input, fun _ => failsOnly_pure _⟩

end Writer

section

variable {t : Table} {style : IndexStyle}

theorem IndexOperand.ofHandle_eq {h : Handle} {v : Variable} (found : t.get? h = some v) :
    ofHandle t h = .ok (v.literalInteger?.elim (.variable h) .word) := by
  refine Outcome.toOption_eq_some.mp ?_
  cases hx : v.literalInteger? <;> simp [ofHandle, found, hx]

/-- An index that is known stands as a numeral. -/
theorem Position.ofHandle_cases {h : Handle} {o : IndexOperand} (made : IndexOperand.ofHandle t h = .ok o) :
    (∃ x, o = .word x ∧ 0 ≤ x ∧ ofHandle t h = .ok (.numeral x)) ∨ ofHandle t h = .ok (.checked o) := by
  cases o with
  | word x =>
      by_cases positive : 0 ≤ x
      · exact .inl ⟨x, rfl, positive, Outcome.toOption_eq_some.mp (by simp [ofHandle, made, positive])⟩
      · exact .inr (Outcome.toOption_eq_some.mp (by simp [ofHandle, made, positive]))
  | «variable» k => exact .inr (by rw [ofHandle, made]; rfl)

theorem Position.afterHandle_cases {h : Handle} {o : IndexOperand}
    (made : IndexOperand.ofHandle t h = .ok o) :
    (∃ x next, o = .word x ∧ Word.add? x 1 = some next ∧ 0 ≤ next ∧
      afterHandle t h = .ok (.numeral next)) ∨ afterHandle t h = .ok (.checkedAfter o) := by
  cases o with
  | word x =>
      cases hn : Word.add? x 1 with
      | none => exact .inr (Outcome.toOption_eq_some.mp (by simp [afterHandle, made, hn]))
      | some next =>
          by_cases positive : 0 ≤ next
          · exact .inl ⟨x, next, rfl, hn, positive,
              Outcome.toOption_eq_some.mp (by simp [afterHandle, made, hn, positive])⟩
          · exact .inr (Outcome.toOption_eq_some.mp (by simp [afterHandle, made, hn, positive]))
  | «variable» k => exact .inr (by rw [afterHandle, made]; rfl)

/-- The variable is in the table, and can be spelled. -/
structure IndexStyle.Spells (style : IndexStyle) (t : Table) (h : Handle) : Prop where
  found : (t.get? h).isSome
  spelled : Sure (style.operand h)

theorem IndexOperand.written {h : Handle} (spells : style.Spells t h) :
    ∃ o, ofHandle t h = .ok o ∧ Sure (style.operandText o) := by
  obtain ⟨v, hv⟩ := Option.isSome_iff_exists.mp spells.found
  refine ⟨_, ofHandle_eq hv, ?_⟩
  cases v.literalInteger? with
  | some x => exact failsOnly_pure _
  | none => exact spells.spelled

theorem IndexOperand.written_option (default : Int64) (o : Option Handle)
    (spells : ∀ h ∈ o.toList, style.Spells t h) :
    ∃ x, ofOption t default o = .ok x ∧ Sure (style.operandText x) := by
  cases o with
  | none => exact ⟨.word default, rfl, failsOnly_pure _⟩
  | some h => exact written (spells h (by simp))

theorem Position.written_ofHandle {h : Handle} (spells : style.Spells t h) :
    ∃ p, ofHandle t h = .ok p ∧ Sure (style.position p) := by
  obtain ⟨o, made, written⟩ := IndexOperand.written spells
  obtain ⟨x, -, -, placed⟩ | placed := ofHandle_cases made
  · exact ⟨.numeral x, placed, failsOnly_pure _⟩
  · exact ⟨.checked o, placed, by simpa [IndexStyle.position] using written⟩

theorem Position.written_afterHandle {h : Handle} (spells : style.Spells t h) :
    ∃ p, afterHandle t h = .ok p ∧ Sure (style.position p) := by
  obtain ⟨o, made, written⟩ := IndexOperand.written spells
  obtain ⟨x, next, -, -, -, placed⟩ | placed := afterHandle_cases made
  · exact ⟨.numeral next, placed, failsOnly_pure _⟩
  · exact ⟨.checkedAfter o, placed, by simpa [IndexStyle.position] using written⟩

theorem Position.written {e : Endpoint} (spells : ∀ h ∈ e.handles, style.Spells t h) :
    ∃ p, ofEndpoint t e = .ok p ∧ Sure (style.position p) := by
  cases e with
  | zero | one | length => exact ⟨_, rfl, failsOnly_pure _⟩
  | value h => exact written_ofHandle (spells h (by simp [Endpoint.handles]))
  | past h => exact written_afterHandle (spells h (by simp [Endpoint.handles]))

theorem Chunk.written {p : Part} (spells : ∀ h ∈ p.handles, style.Spells t h) :
    ∃ c, ofPart t p = .ok c ∧ Sure (style.chunk c) := by
  cases p with
  | single h =>
      obtain ⟨p, hp, written⟩ := Position.written_ofHandle (spells h (by simp [Part.handles]))
      exact ⟨.single p, by rw [ofPart, hp]; rfl, failsOnly_map.mpr written⟩
  | span first step last =>
      obtain ⟨x, hx, first⟩ := IndexOperand.written (spells first (by simp [Part.handles]))
      obtain ⟨y, hy, second⟩ := IndexOperand.written_option 1 step
        fun h hh => spells h (by simp_all [Part.handles])
      obtain ⟨z, hz, third⟩ := IndexOperand.written (spells last (by simp [Part.handles]))
      exact ⟨.sequence x y z, by rw [ofPart, hx, hy, hz]; rfl,
        by simp [IndexStyle.chunk, first, second, third]⟩
  | toEnd first step =>
      obtain ⟨x, hx, first⟩ := IndexOperand.written_option 0 first
        fun h hh => spells h (by simp_all [Part.handles])
      obtain ⟨y, hy, second⟩ := IndexOperand.written_option 1 step
        fun h hh => spells h (by simp_all [Part.handles])
      exact ⟨.sequenceTo x y, by rw [ofPart, hx, hy]; rfl, by simp [IndexStyle.chunk, first, second]⟩

theorem Chunk.written_all (ps : List Part) (spells : ∀ p ∈ ps, ∀ h ∈ p.handles, style.Spells t h) :
    ∃ cs, ps.mapM (ofPart t) = .ok cs ∧ Sure (cs.mapM style.chunk) := by
  induction ps with
  | nil => exact ⟨[], rfl, failsOnly_pure _⟩
  | cons p ps ih =>
      obtain ⟨c, hc, first⟩ := Chunk.written (spells p (by simp))
      obtain ⟨cs, hcs, rest⟩ := ih fun q hq => spells q (by simp [hq])
      refine ⟨c :: cs, ?_, ?_⟩
      · rw [List.mapM_cons, hc, hcs]
        rfl
      · simp [List.mapM_cons, first, rest]

/-- Extents can be written. -/
theorem Extent.sure_render {e : Extent} (spells : ∀ h ∈ e.handles, style.Spells t h) :
    Sure (e.render t style) := by
  cases e with
  | block start stop =>
      obtain ⟨p, hp, first⟩ := Position.written fun h hh => spells h (List.mem_append_left _ hh)
      obtain ⟨q, hq, last⟩ := Position.written fun h hh => spells h (List.mem_append_right _ hh)
      simp [render, expression, hp, hq, first, last]
  | listed parts =>
      obtain ⟨cs, hcs, written⟩ := Chunk.written_all parts fun p hp h hh =>
        spells h (List.mem_flatMap.mpr ⟨p, hp, hh⟩)
      have joined : Sure (style.joined cs) := by
        refine failsOnly_bind.mpr ⟨written, fun texts _ => ?_⟩
        match texts with
        | [] | [_] | _ :: _ :: _ => exact failsOnly_pure _
      simp [render, expression, hcs, joined]

end

end MatrixCode
