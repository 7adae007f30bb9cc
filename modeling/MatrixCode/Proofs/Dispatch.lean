import MatrixCode.Proofs.Grounding

/-!
What can go wrong in a run. When an instruction fits its operands, the machine knows how to carry
it out, and everything that it asks the table for is there. What is left are failures that come
with the values: a variable without one, an index out of bounds, a singular matrix and the like.
-/

namespace MatrixCode

/-- The failure lies with the values that a program is run on. -/
def Failure.IsRuntime : Failure → Prop
  | reported error => error.category = .runtime
  | dangling _ => False
  | noDecomposition => True

theorem Failure.isRuntime_ofFault (op : String) (fault : Fault) : (ofFault op fault).IsRuntime := by
  cases fault with
  | noDecomposition => trivial
  | _ => rfl

section

variable {α β : Type} {Q : Failure → Prop}

/-- The computation fails, if it does, with one of the failures. -/
def FailsOnly (Q : Failure → Prop) (x : Outcome α) : Prop := ∀ e, x = .error e → Q e

/-- The computation fails, if it does, because of values. -/
abbrev Operational (x : Outcome α) : Prop := FailsOnly Failure.IsRuntime x

@[simp] theorem failsOnly_ok (a : α) : FailsOnly Q (.ok a) := by
  rintro _ ⟨⟩

@[simp] theorem failsOnly_pure (a : α) : FailsOnly Q (pure a) := failsOnly_ok a

@[simp] theorem failsOnly_error {e : Failure} : FailsOnly Q (.error e : Outcome α) ↔ Q e :=
  ⟨fun h => h e rfl, by rintro h _ ⟨⟩; exact h⟩

@[simp] theorem failsOnly_report {e : Error} :
    FailsOnly Q (report e : Outcome α) ↔ Q (.reported e) := failsOnly_error

theorem failsOnly_of_isSome {x : Outcome α} (h : x.toOption.isSome) : FailsOnly Q x := by
  cases x with
  | ok a => exact failsOnly_ok a
  | error e => cases h

@[simp] theorem failsOnly_bind {x : Outcome α} {f : α → Outcome β} :
    FailsOnly Q (x >>= f) ↔ FailsOnly Q x ∧ ∀ a, x = .ok a → FailsOnly Q (f a) := by
  cases x with
  | ok a => exact ⟨fun h => ⟨failsOnly_ok a, by rintro _ ⟨⟩; exact h⟩, fun h => h.2 a rfl⟩
  | error e =>
      refine ⟨fun h => ⟨failsOnly_error.mpr (failsOnly_error.mp h), by rintro _ ⟨⟩⟩, fun h => ?_⟩
      exact failsOnly_error.mpr (failsOnly_error.mp h.1)

@[simp] theorem failsOnly_map {x : Outcome α} {f : α → β} :
    FailsOnly Q (f <$> x) ↔ FailsOnly Q x := by
  cases x with
  | ok a => exact iff_of_true (failsOnly_ok _) (failsOnly_ok a)
  | error e => exact failsOnly_error.trans failsOnly_error.symm

@[simp] theorem failsOnly_ite {c : Prop} [Decidable c] {x y : Outcome α} :
    FailsOnly Q (if c then x else y) ↔ (c → FailsOnly Q x) ∧ (¬c → FailsOnly Q y) := by
  by_cases h : c <;> simp [h]

theorem failsOnly_mapM {f : α → Outcome β} {xs : List α} (each : ∀ x ∈ xs, FailsOnly Q (f x)) :
    FailsOnly Q (xs.mapM f) := by
  induction xs with
  | nil => exact failsOnly_pure _
  | cons x xs ih =>
      rw [List.mapM_cons]
      refine failsOnly_bind.mpr ⟨each x (by simp), fun _ _ => failsOnly_bind.mpr ⟨?_, ?_⟩⟩
      · exact ih fun y hy => each y (by simp [hy])
      · exact fun _ _ => failsOnly_pure _

theorem operational_mapError (op : String) (r : Except Fault α) :
    Operational (r.mapError (Failure.ofFault op)) := by
  cases r with
  | ok a => exact failsOnly_ok a
  | error fault => exact failsOnly_error.mpr (Failure.isRuntime_ofFault op fault)

@[simp] theorem operational_kernel (i : Instruction) (r : Except Fault α) : Operational (i.kernel r) :=
  operational_mapError _ r

theorem operational_stateful {σ : Type} (i : Instruction) (x : ExceptT Fault (StateM σ) α) (s : σ) :
    Operational (completed (i.stateful x) s) := by
  rw [completed_stateful]
  exact operational_kernel i _

@[simp] theorem operational_checked (r : Except Fault α) : Operational (Extent.checked r) :=
  operational_mapError _ r

end

namespace Store

variable {s : Store} {t : Table} {h : Handle}

@[simp] theorem operational_wrongKind {α : Type} (v : Variable) (x : Value) (expected : String) :
    Operational (wrongKind v x expected : Outcome α) := failsOnly_report.mpr rfl

theorem operational_integer (found : (t.get? h).isSome) : Operational (s.integer t h) := by
  obtain ⟨v, hv⟩ := Option.isSome_iff_exists.mp found
  simp only [integer, Table.lookup, hv, failsOnly_bind, failsOnly_ok, Except.ok.injEq,
    forall_eq', true_and]
  repeat' split
  all_goals simp [Failure.IsRuntime, Error.category]

theorem operational_double (found : (t.get? h).isSome) : Operational (s.double t h) := by
  obtain ⟨v, hv⟩ := Option.isSome_iff_exists.mp found
  simp only [double, Table.lookup, hv, failsOnly_bind, failsOnly_ok, Except.ok.injEq,
    forall_eq', true_and]
  repeat' split
  all_goals simp [Failure.IsRuntime, Error.category]

theorem operational_index (found : (t.get? h).isSome) : Operational (s.index t h) := by
  obtain ⟨v, hv⟩ := Option.isSome_iff_exists.mp found
  have kind : t.fetchKind h = .ok v.kind := by simp [Table.fetchKind, Table.fetch, hv]
  simp only [index, kind, failsOnly_bind, failsOnly_ok, Except.ok.injEq, forall_eq', true_and]
  split
  · refine failsOnly_bind.mpr ⟨operational_double found, fun x _ => ?_⟩
    split <;> simp [Failure.IsRuntime, Error.category]
  · exact operational_integer found

theorem operational_matrix (found : (t.get? h).isSome) : Operational (s.matrix t h) := by
  obtain ⟨v, hv⟩ := Option.isSome_iff_exists.mp found
  simp only [matrix, Table.fetch, hv]
  split <;> simp [Failure.IsRuntime, Error.category]

end Store

section

variable {length : Nat} {value : Handle → Outcome Int64}

theorem Endpoint.operational_resolve {e : Endpoint} (values : ∀ h ∈ e.handles, Operational (value h)) :
    Operational (e.resolve length value) := by
  cases e with
  | zero | one | length => exact failsOnly_pure _
  | value h | past h => simp [resolve, values h (by simp [handles])]

theorem Part.operational_valueOr {default : Int64} {o : Option Handle}
    (values : ∀ h ∈ o.toList, Operational (value h)) : Operational (valueOr value default o) := by
  cases o with
  | none => exact failsOnly_pure _
  | some h => exact values h (by simp)

theorem Part.operational_resolve {p : Part} (values : ∀ h ∈ p.handles, Operational (value h)) :
    Operational (p.resolve length value) := by
  cases p with
  | single h => simp [resolve, values h (by simp [handles])]
  | span first step last =>
      have hs : Operational (valueOr value 1 step) :=
        operational_valueOr fun h hh => values h (by simp_all [handles])
      simp [resolve, hs, values first (by simp [handles]), values last (by simp [handles])]
  | toEnd first step =>
      have hf : Operational (valueOr value 0 first) :=
        operational_valueOr fun h hh => values h (by simp_all [handles])
      have hs : Operational (valueOr value 1 step) :=
        operational_valueOr fun h hh => values h (by simp_all [handles])
      simp [resolve, hf, hs]

theorem Extent.operational_resolve {e : Extent} (values : ∀ h ∈ e.handles, Operational (value h)) :
    Operational (e.resolve length value) := by
  cases e with
  | block start stop =>
      have first : Operational (start.resolve length value) :=
        Endpoint.operational_resolve fun h hh => values h (List.mem_append_left _ hh)
      have last : Operational (stop.resolve length value) :=
        Endpoint.operational_resolve fun h hh => values h (List.mem_append_right _ hh)
      simp [resolve, first, last]
  | listed parts =>
      have each : Operational (parts.mapM (Part.resolve length value)) :=
        failsOnly_mapM fun p hp => Part.operational_resolve fun h hh =>
          values h (List.mem_flatMap.mpr ⟨p, hp, hh⟩)
      simp [resolve, each]

theorem Addressing.operational_resolve {rows cols : Nat} {a : Addressing}
    (values : ∀ h ∈ a.handles, Operational (value h)) : Operational (a.resolve rows cols value) := by
  cases a with
  | flat elements =>
      have all : Operational (elements.resolve (rows * cols) value) := Extent.operational_resolve values
      simp [resolve, all]
  | grid r c =>
      have first : Operational (r.resolve rows value) :=
        Extent.operational_resolve fun h hh => values h (List.mem_append_left _ hh)
      have second : Operational (c.resolve cols value) :=
        Extent.operational_resolve fun h hh => values h (List.mem_append_right _ hh)
      simp [resolve, first, second]

end

/-- The instruction of a form. -/
def Form.instruction (form : Form) (inputs : List Handle) (w : Handle) : Instruction :=
  ⟨form.primitive, form.signature, inputs, some w, none, none, form.dimensions⟩

theorem Form.ne_assemble_of_unary? {p : Primitive} {kind : Kind} {form : Form}
    (h : unary? p kind = some form) : form.primitive ≠ .assemble := by
  unfold unary? at h
  split at h <;> cases h <;> simp

theorem Form.ne_assemble_of_binary? {p : Primitive} {left right : Kind} {form : Form}
    (h : binary? p left right = some form) : form.primitive ≠ .assemble := by
  obtain ⟨signature, -, h⟩ := Option.bind_eq_some_iff.mp h
  split at h <;> cases h <;> simp

theorem Table.fetchKind_eq_ok {t : Table} {h : Handle} {kind : Kind} (hk : t.kind? h = some kind) :
    t.fetchKind h = .ok kind := by
  obtain ⟨v, hv, rfl⟩ := Option.map_eq_some_iff.mp hk
  simp [fetchKind, fetch, hv]

namespace Instruction

variable {t : Table} {s : Store} {m : Machine} {g : Generator} {a b w : Handle} {form : Form}

/-- The kind of the target decides where the result comes from. -/
theorem operational_evaluate {i : Instruction} {kind : Kind} (output : i.output = some w)
    (whole : i.isPartial = false) (other : i.primitive ≠ .assemble) (hw : t.kind? w = some kind)
    (plain : kind ≠ .sequence)
    (integer : kind = .integer → Operational (i.integerResult t m.store m.generator))
    (double : kind = .double → Operational (i.doubleResult t m.store))
    (matrix : kind = .matrix → Operational (i.matrixResult t m.store m.generator w)) :
    Operational (i.evaluate t m) := by
  rw [isPartial] at whole
  simp only [evaluate, target, output, whole, other, Table.fetchKind_eq_ok hw, failsOnly_bind,
    failsOnly_ok, Except.ok.injEq, forall_eq', true_and, Bool.false_eq_true, if_false]
  cases kind with
  | integer => simp [integer rfl]
  | double => simp [double rfl]
  | matrix => simp [matrix rfl]
  | sequence => exact absurd rfl plain

section

variable {p : Primitive} {kind : Kind} (ha : (t.get? a).isSome) (found : Form.unary? p kind = some form)

include ha found

theorem operational_integerResult_unary (integer : form.kind = .integer) :
    Operational ((form.instruction [a] w).integerResult t s g) := by
  have read := Store.operational_integer (s := s) ha
  unfold Form.unary? at found
  split at found <;> cases found <;> cases integer <;>
    simp [Form.instruction, integerResult, Primitive.onWords, integerInput, input, read]
  all_goals
    intro x _
    split <;> simp [Failure.IsRuntime, Error.category]

theorem operational_doubleResult_unary (double : form.kind = .double) :
    Operational ((form.instruction [a] w).doubleResult t s) := by
  have matrix := Store.operational_matrix (s := s) ha
  have scalar := Store.operational_double (s := s) ha
  unfold Form.unary? at found
  split at found <;> cases found <;> cases double <;>
    simp [Form.instruction, doubleResult, Primitive.onDoubles, Primitive.onDouble, matrixInput, input,
      matrix, scalar]

theorem operational_matrixResult_unary (matrix : form.kind = .matrix) :
    Operational ((form.instruction [a] w).matrixResult t s g w) := by
  have matrix := Store.operational_matrix (s := s) ha
  have integer := Store.operational_integer (s := s) ha
  unfold Form.unary? at found
  split at found <;> cases found <;> cases matrix <;>
    simp [Form.instruction, matrixResult, writesInPlace, freshResult, inPlaceResult, writeInto, targetShape,
      Form.transposed, integerInput, matrixInput, input, matrix, integer, completed_map, completed_lift,
      completed_lift_bind]

theorem operational_unary (hw : t.kind? w = some form.kind) :
    Operational ((form.instruction [a] w).evaluate t m) :=
  operational_evaluate rfl (Bool.and_false _) (Form.ne_assemble_of_unary? found) hw
    (Form.kind_of_unary? found) (operational_integerResult_unary ha found)
    (operational_doubleResult_unary ha found) (operational_matrixResult_unary ha found)

end

section

variable {p : Primitive} {left right : Kind} (ha : (t.get? a).isSome) (hb : (t.get? b).isSome)
  (found : Form.binary? p left right = some form)

include ha hb found

theorem operational_integerResult_binary (integer : form.kind = .integer) :
    Operational ((form.instruction [a, b] w).integerResult t s g) := by
  have first := Store.operational_integer (s := s) ha
  have second := Store.operational_integer (s := s) hb
  obtain ⟨signature, -, found⟩ := Option.bind_eq_some_iff.mp found
  split at found <;> cases found <;> cases integer <;>
    simp [Form.instruction, integerResult, Primitive.onWords, first, second]
  all_goals
    intros
    split <;> simp [Failure.IsRuntime, Error.category]

theorem operational_doubleResult_binary (double : form.kind = .double) :
    Operational ((form.instruction [a, b] w).doubleResult t s) := by
  have matrices := And.intro (Store.operational_matrix (s := s) ha) (Store.operational_matrix (s := s) hb)
  have scalars := And.intro (Store.operational_double (s := s) ha) (Store.operational_double (s := s) hb)
  obtain ⟨signature, -, found⟩ := Option.bind_eq_some_iff.mp found
  split at found <;> cases found <;> cases double <;>
    simp [Form.instruction, doubleResult, Primitive.onDoubles, Primitive.onDouble,
      Primitive.onDoublePair, matrixInput, doubleInput, input, matrices, scalars]

theorem operational_matrixResult_binary (matrix : form.kind = .matrix) :
    Operational ((form.instruction [a, b] w).matrixResult t s g w) := by
  have matrices := And.intro (Store.operational_matrix (s := s) ha) (Store.operational_matrix (s := s) hb)
  have scalars := And.intro (Store.operational_double (s := s) ha) (Store.operational_double (s := s) hb)
  have integers :=
    And.intro (Store.operational_integer (s := s) ha) (Store.operational_integer (s := s) hb)
  obtain ⟨signature, -, found⟩ := Option.bind_eq_some_iff.mp found
  split at found <;> cases found <;> cases matrix <;>
    simp [Form.instruction, matrixResult, writesInPlace, freshResult, inPlaceResult, writeInto, targetShape,
      Form.likeLeft, Form.outer, integerInput, matrixInput, doubleInput, input, matrices, scalars,
      integers, completed_map, completed_lift, completed_lift_bind, operational_stateful]

theorem operational_binary (hw : t.kind? w = some form.kind) :
    Operational ((form.instruction [a, b] w).evaluate t m) :=
  operational_evaluate rfl (Bool.and_false _) (Form.ne_assemble_of_binary? found) hw
    (Form.kind_of_binary? found) (operational_integerResult_binary ha hb found)
    (operational_doubleResult_binary ha hb found) (operational_matrixResult_binary ha hb found)

end

/-- Copies of whole variables. -/
theorem operational_copy {source target : Handle} {left right : Kind} (hs : (t.get? source).isSome)
    (ht : t.kind? target = some right) (found : Form.copy? left right = some form) :
    Operational ((form.instruction [source] target).evaluate t m) := by
  have integer := Store.operational_integer (s := m.store) hs
  have double := Store.operational_double (s := m.store) hs
  have matrix := Store.operational_matrix (s := m.store) hs
  unfold Form.copy? at found
  split at found <;> cases found <;>
    simp [Form.instruction, evaluate, Instruction.target, Table.fetchKind_eq_ok ht, integerResult,
      doubleResult, matrixResult, writesInPlace, freshResult, inPlaceResult, writeInto, targetShape,
      Form.likeLeft, matrixInput, input, Primitive.onWords, Primitive.onDoubles, Primitive.onDouble,
      integer, double, matrix, completed_lift, completed_lift_bind]

/-- What a range selects is resolved against values. -/
theorem operational_region {range : List Handle} {addressing : Addressing} (grounded : t.Grounded)
    (selects : t.Selects range) (classified : Addressing.classify t range = .ok addressing)
    (rows cols : Nat) : Operational (addressing.resolve rows cols (s.index t)) :=
  Addressing.operational_resolve fun h hh => Store.operational_index <|
    grounded.isSome_addressed selects (Outcome.toOption_eq_some.mpr classified) h hh

theorem operational_extract {range : List Handle} (grounded : t.Grounded) (ha : (t.get? a).isSome)
    (selects : t.Selects range) (hw : t.kind? w = some .matrix) :
    Operational (evaluate ⟨.extract, .bare, [a], some w, some range, none, []⟩ t m) := by
  refine operational_evaluate rfl rfl (by simp) hw (by simp) (by simp) (by simp) fun _ => ?_
  change Operational (completed (liftM (extractResult _ t m.store)) m.generator)
  rw [completed_lift]
  refine failsOnly_map.mpr (failsOnly_bind.mpr ⟨?_, fun addressing classified => ?_⟩)
  · exact failsOnly_of_isSome (grounded.isSome_classify selects)
  refine failsOnly_bind.mpr ⟨Store.operational_matrix ha, fun x _ => ?_⟩
  refine failsOnly_bind.mpr ⟨operational_region grounded selects classified _ _, fun region _ => ?_⟩
  split <;> exact operational_kernel _ _

theorem operational_element {indices : List Handle} (ha : (t.get? a).isSome)
    (count : indices.length = 1 ∨ indices.length = 2) (found : ∀ h ∈ indices, (t.get? h).isSome)
    (hw : t.kind? w = some .double) :
    Operational (evaluate ⟨.element, .bare, a :: indices, some w, none, none, []⟩ t m) := by
  have matrix := Store.operational_matrix (s := m.store) ha
  have index (h : Handle) (hh : h ∈ indices) := Store.operational_integer (s := m.store) (found h hh)
  refine operational_evaluate rfl rfl (by simp) hw (by simp) (by simp) (fun _ => ?_) (by simp)
  match indices, count with
  | [x], _ => simp [doubleResult, matrixInput, integerInput, input, matrix, index x]
  | [x, y], _ => simp [doubleResult, matrixInput, integerInput, input, matrix, index x, index y]

theorem operational_assemble {rows : List (List Handle)}
    (items : ∀ h ∈ rows.flatten, ∃ kind, t.kind? h = some kind ∧ kind ≠ .sequence) :
    Operational (evaluate ⟨.assemble, .bare, [], some w, none, some rows, []⟩ t m) := by
  have item (h : Handle) (hh : h ∈ rows.flatten) : Operational (itemValue t m.store h) := by
    obtain ⟨kind, hk, other⟩ := items h hh
    have found := Table.isSome_get?_of_kind? hk
    rw [itemValue, Table.fetchKind_eq_ok hk]
    cases kind with
    | matrix => exact Store.operational_matrix found
    | integer | double => exact failsOnly_map.mpr (Store.operational_double found)
    | sequence => exact absurd rfl other
  refine failsOnly_map.mpr (failsOnly_bind.mpr ⟨?_, fun _ _ => operational_kernel _ _⟩)
  exact failsOnly_mapM fun row hr => failsOnly_mapM fun h hh =>
    item h (List.mem_flatten.mpr ⟨row, hr, hh⟩)

theorem operational_insertPart (i : Instruction) (part : Matrix Float) (region : Region)
    (whole : Matrix Float) : Operational (completed (i.insertPart part region) whole) := by
  unfold insertPart
  split <;> exact operational_stateful i _ whole

theorem operational_fillPart (i : Instruction) (x : Float) (region : Region) (whole : Matrix Float) :
    Operational (completed (i.fillPart x region) whole) := by
  unfold fillPart
  split <;> exact operational_stateful i _ whole

/-- Copies into a part of a matrix. -/
theorem operational_copyRange {source target : Handle} {range : List Handle} {left right : Kind}
    (grounded : t.Grounded) (hs : (t.get? source).isSome) (ht : t.kind? target = some right)
    (found : Form.copyRange? left right = some form) (selects : t.Selects range) :
    Operational ((Construction.copying form source target (some range)).evaluate t m) := by
  obtain ⟨v, hv⟩ := Option.isSome_iff_exists.mp (Table.isSome_get?_of_kind? ht)
  suffices result : Operational ((Construction.copying form source target (some range)).copyRangeResult
      t m.store target) by
    simpa [evaluate, Construction.copying, Instruction.target, (Form.primitive_of_copyRange? found).1]
      using result
  refine failsOnly_bind.mpr ⟨failsOnly_ok source, ?_⟩
  rintro _ ⟨⟩
  refine failsOnly_bind.mpr ⟨failsOnly_of_isSome (grounded.isSome_classify selects),
    fun addressing hc => ?_⟩
  split
  · refine failsOnly_bind.mpr ⟨?_, fun _ _ => failsOnly_pure _⟩
    rw [completed_writePart]
    refine failsOnly_bind.mpr ⟨operational_region grounded selects hc _ _, fun region _ => ?_⟩
    unfold Form.copyRange? at found
    split at found <;> cases found
    · refine failsOnly_bind.mpr ⟨failsOnly_ite.mpr ⟨fun _ => failsOnly_pure _, fun _ => ?_⟩, fun part _ => ?_⟩
      · exact Store.operational_matrix hs
      · exact operational_insertPart _ part region _
    all_goals
      exact failsOnly_bind.mpr ⟨Store.operational_double hs, fun x _ => operational_fillPart _ x region _⟩
  · simp [Table.fetch, hv, Failure.IsRuntime, Error.category]

/-- A fitting instruction can be carried out, as far as it depends on the instruction. -/
theorem Fits.operational {i : Instruction} (fits : i.Fits t) (grounded : t.Grounded) (m : Machine) :
    Operational (i.evaluate t m) := by
  have found {h : Handle} {kind : Kind} (hk : t.kind? h = some kind) : (t.get? h).isSome :=
    Table.isSome_get?_of_kind? hk
  cases fits with
  | unary ha form hw => exact operational_unary (found ha) form hw
  | binary ha hb form hw => exact operational_binary (found ha) (found hb) form hw
  | assemble items hw => exact operational_assemble items
  | extract ha selects hw => exact operational_extract grounded (found ha) selects hw
  | element ha count integers hw =>
      exact operational_element (found ha) count (fun h hh => found (integers h hh)) hw
  | copy hs ht form => exact operational_copy (found hs) ht form
  | copyRange hs ht form selects => exact operational_copyRange grounded (found hs) ht form selects

end Instruction

end MatrixCode
