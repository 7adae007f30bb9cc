import MatrixCode.Proofs.Spelling

/-!
Writing out never fails. Whatever can be constructed has a place in the tables of the writer: an
expression, a kernel, or a kernel that writes into the target.
-/

namespace MatrixCode

/-- The argument is among the first operands. -/
def Argument.Within (n : Nat) : Argument → Prop
  | matrix position | double position | integer position | index position => position < n
  | generator => True

/-- The arguments are among the first operands. -/
def KernelCall.Within (n : Nat) (c : KernelCall) : Prop := ∀ a ∈ c.arguments, a.Within n

/-- The dimension is one of the first operands. -/
def Dimension.Within (n : Nat) : Dimension → Prop
  | leftRows | leftCols => 0 < n
  | rightRows | rightCols => 1 < n

namespace Instruction

/-- How an instruction with a scalar result is written: as an expression, as a new seed, or as
the call of a kernel. -/
inductive WrittenScalar (t : Table) (i : Instruction) : Prop where
  | expression (scalars : ∀ h ∈ i.inputs, (t.kind? h).any Kind.isScalar)
      (phrase : (Phrase.ofInstruction? i).isSome)
  | seed (primitive : i.primitive = .reseed) (signature : i.signature = .i)
      (operand : 0 < i.inputs.length)
  | kernel {c : KernelCall} (call : KernelCall.scalar? i = some c) (within : c.Within i.inputs.length)

/-- How an instruction with a matrix for a result is written: into the target, which keeps its
storage, or as an expression. -/
structure WrittenMatrix (i : Instruction) : Prop where
  inPlace : i.writesInPlace → ∃ rows cols c, i.dimensions = [rows, cols] ∧
    rows.Within i.inputs.length ∧ cols.Within i.inputs.length ∧
    KernelCall.into? i.primitive = some c ∧ c.Within i.inputs.length
  fresh : i.primitive = .copy ∧ i.writesInPlace ∧ i.inputs.length = 1 ∨
    i.primitive = .transpose ∧ i.signature = .m ∧ 0 < i.inputs.length ∨
    ∃ c, KernelCall.matrix? i.primitive i.signature = some c ∧ c.Within i.inputs.length

variable {t : Table} {a b w : Handle} {form : Form}

theorem phrase_of_unary? {p : Primitive} {kind : Kind} (found : Form.unary? p kind = some form)
    (scalar : form.kind.isScalar) (operand : kind.isScalar) (other : p ≠ .reseed) :
    (Phrase.ofInstruction? (form.instruction [a] w)).isSome := by
  revert other
  unfold Form.unary? at found
  split at found <;> cases found <;> cases scalar <;> cases operand <;>
    simp [Form.instruction, Phrase.ofInstruction?, Phrase.unary?]

theorem kernel_of_unary? {p : Primitive} (found : Form.unary? p .matrix = some form)
    (scalar : form.kind.isScalar) :
    ∃ c, KernelCall.scalar? (form.instruction [a] w) = some c ∧ c.Within 1 := by
  cases p <;> cases found <;> cases scalar <;>
    exact ⟨_, rfl, by simp [KernelCall.Within, KernelCall.unary, Argument.Within]⟩

/-- Scalars of one operand. -/
theorem writtenScalar_unary {p : Primitive} {kind : Kind} (ha : t.kind? a = some kind)
    (found : Form.unary? p kind = some form) (scalar : form.kind.isScalar) :
    (form.instruction [a] w).WrittenScalar t := by
  cases kind with
  | matrix =>
      obtain ⟨c, call, within⟩ := kernel_of_unary? found scalar
      exact .kernel call within
  | sequence => cases p <;> cases found
  | double =>
      exact .expression (by simp [Form.instruction, ha, Kind.isScalar])
        (phrase_of_unary? found scalar rfl (by rintro rfl; cases found))
  | integer =>
      by_cases seed : p = .reseed
      · subst seed
        cases found
        exact .seed rfl rfl Nat.one_pos
      · exact .expression (by simp [Form.instruction, ha, Kind.isScalar])
          (phrase_of_unary? found scalar rfl seed)

theorem phrase_of_binary? {p : Primitive} {left right : Kind}
    (found : Form.binary? p left right = some form) (scalar : form.kind.isScalar)
    (operands : left.isScalar ∧ right.isScalar) :
    (Phrase.ofInstruction? (form.instruction [a, b] w)).isSome := by
  obtain ⟨signature, paired, found⟩ := Option.bind_eq_some_iff.mp found
  have both : signature = .ii ∨ signature = .ss := by
    cases left <;> cases right <;> simp_all [Form.pairing, Kind.isScalar]
  obtain rfl | rfl := both <;> cases p <;> cases found <;> cases scalar <;> rfl

theorem kernel_of_binary? {p : Primitive} {left right : Kind}
    (found : Form.binary? p left right = some form) (scalar : form.kind.isScalar)
    (operands : ¬(left.isScalar ∧ right.isScalar)) :
    ∃ c, KernelCall.scalar? (form.instruction [a, b] w) = some c ∧ c.Within 2 := by
  obtain ⟨signature, paired, found⟩ := Option.bind_eq_some_iff.mp found
  have some : signature = .mm ∨ signature = .ms ∨ signature = .sm := by
    cases left <;> cases right <;> simp_all [Form.pairing, Kind.isScalar]
  obtain rfl | rfl | rfl := some <;> cases p <;> cases found <;> cases scalar <;>
    exact ⟨_, rfl, by simp [KernelCall.Within, KernelCall.binary, Argument.Within]⟩

/-- Scalars of two operands. -/
theorem writtenScalar_binary {p : Primitive} {left right : Kind} (ha : t.kind? a = some left)
    (hb : t.kind? b = some right) (found : Form.binary? p left right = some form)
    (scalar : form.kind.isScalar) : (form.instruction [a, b] w).WrittenScalar t := by
  by_cases operands : left.isScalar ∧ right.isScalar
  · exact .expression (by simp [Form.instruction, ha, hb, operands])
      (phrase_of_binary? found scalar operands)
  · obtain ⟨c, call, within⟩ := kernel_of_binary? found scalar operands
    exact .kernel call within

theorem writtenMatrix_unary {p : Primitive} {kind : Kind}
    (found : Form.unary? p kind = some form) (matrix : form.kind = .matrix) :
    (form.instruction [a] w).WrittenMatrix := by
  unfold Form.unary? at found
  split at found <;> cases found <;> cases matrix <;> constructor <;>
    simp [Form.instruction, writesInPlace, KernelCall.matrix?, KernelCall.into?, KernelCall.Within,
      KernelCall.unary, Argument.Within, Form.transposed, Dimension.Within]

theorem writtenMatrix_binary {p : Primitive} {left right : Kind}
    (found : Form.binary? p left right = some form) (matrix : form.kind = .matrix) :
    (form.instruction [a, b] w).WrittenMatrix := by
  obtain ⟨signature, -, found⟩ := Option.bind_eq_some_iff.mp found
  split at found <;> cases found <;> cases matrix <;> constructor <;>
    simp [Form.instruction, writesInPlace, KernelCall.matrix?, KernelCall.into?, KernelCall.Within,
      KernelCall.binary, Argument.Within, Form.likeLeft, Form.outer, Dimension.Within]

end Instruction

section

variable {Q : Failure → Prop} {α β : Type}

theorem failsOnly_run_outcome {o : Outcome α} (h : FailsOnly Q o) (s : String) :
    FailsOnly Q ((liftM o : Emission α).run.run s).1 := by
  rwa [run_outcome]

/-- What follows an outcome in an emission. -/
theorem failsOnly_emit {o : Outcome α} {f : α → Emission β} {s : String} (first : FailsOnly Q o)
    (rest : ∀ a, o = .ok a → FailsOnly Q ((f a).run.run s).1) :
    FailsOnly Q ((liftM o >>= f : Emission β).run.run s).1 := by
  refine failsOnly_run_bind (failsOnly_run_outcome first s) fun a s' ran => ?_
  rw [Yields, run_outcome] at ran
  cases ran
  exact rest a rfl

end

namespace Writer

variable {w : Writer} {t : Table} {i : Instruction} {target : Handle}

section

variable (found : ∀ h ∈ i.inputs, (t.get? h).isSome)

include found

theorem sure_input {position : Nat} (within : position < i.inputs.length) :
    ∃ h, i.input position = .ok h ∧ (t.get? h).isSome := by
  refine ⟨i.inputs[position], ?_, found _ (List.getElem_mem within)⟩
  rw [Instruction.input, List.getElem?_eq_getElem within]

theorem sure_argument {a : Argument} (within : a.Within i.inputs.length) : Sure (w.argument t i a) := by
  cases a with
  | generator => exact failsOnly_pure _
  | matrix position =>
      obtain ⟨h, hi, hh⟩ := sure_input found within
      simp [argument, hi, sure_reference hh]
  | double position =>
      obtain ⟨h, hi, hh⟩ := sure_input found within
      simp [argument, hi, sure_double hh]
  | integer position =>
      obtain ⟨h, hi, hh⟩ := sure_input found within
      simp [argument, hi, sure_scalar hh]
  | index position =>
      obtain ⟨h, hi, hh⟩ := sure_input found within
      simp [argument, hi, sure_index hh]

theorem sure_kernelCall {c : KernelCall} (within : c.Within i.inputs.length) (extra : List String) :
    Sure (w.kernelCall t i c extra) :=
  failsOnly_map.mpr (failsOnly_mapM fun a ha => sure_argument found (within a ha))

theorem sure_dimension {d : Dimension} (within : d.Within i.inputs.length) : Sure (dimension t i d) := by
  cases d with
  | leftRows | leftCols | rightRows | rightCols =>
      obtain ⟨h, hi, hh⟩ := sure_input found within
      simp [dimension, hi, sure_receiver hh]

theorem sure_scalarStatement (written : i.WrittenScalar t) (ht : (t.get? target).isSome) (s : String) :
    Sure ((w.scalarStatement t i target).run.run s).1 := by
  refine failsOnly_emit (sure_leftSide ht) fun left _ => ?_
  refine failsOnly_emit (sure_scalarExpression found) fun expression he => ?_
  cases expression with
  | some e => exact failsOnly_ok _
  | none =>
      cases written with
      | expression scalars phrase =>
          obtain ⟨phrase, hp⟩ := Option.isSome_iff_exists.mp phrase
          have all : (i.inputs.all fun h => (t.kind? h).any Kind.isScalar) = true := by
            simpa using scalars
          have := congrArg Except.toOption he
          simp [scalarExpression, areScalars_eq found, all, hp] at this
      | seed primitive signature operand =>
          obtain ⟨h, hi, hh⟩ := sure_input found operand
          simp only [primitive, signature]
          refine failsOnly_emit (by simp [hi]) fun h' hi' => ?_
          obtain rfl : h = h' := by simpa [hi] using hi'
          exact failsOnly_emit (sure_scalar hh) fun seed _ => failsOnly_ok _
      | kernel call within =>
          dsimp only
          split
          · next primitive signature => simp [KernelCall.scalar?, primitive, signature] at call
          · rw [call]
            exact failsOnly_emit (sure_kernelCall found within []) fun text _ => failsOnly_ok _

theorem sure_matrixStatement (written : i.WrittenMatrix) (ht : (t.get? target).isSome) (s : String) :
    Sure ((w.matrixStatement t i target).run.run s).1 := by
  unfold matrixStatement
  split
  · exact failsOnly_ok _
  · next other =>
    split
    · next inPlace =>
      obtain ⟨rows, cols, c, hd, hr, hc, call, within⟩ :=
        written.inPlace (Bool.and_eq_true_iff.mp inPlace).1
      unfold inPlaceStatement
      rw [hd, call]
      refine failsOnly_emit (sure_dimension found hr) fun rows _ => ?_
      refine failsOnly_emit (sure_dimension found hc) fun cols _ => ?_
      refine failsOnly_emit (sure_receiver ht) fun whole _ => ?_
      refine failsOnly_run_bind (failsOnly_ok _) fun _ s' _ => ?_
      refine failsOnly_emit (sure_mutable ht) fun text _ => ?_
      exact failsOnly_emit (sure_kernelCall found within _) fun text _ => failsOnly_ok _
    · next fresh =>
      have expression : Sure (w.matrixExpression t i) := by
        obtain ⟨copy, inPlace, one⟩ | ⟨primitive, signature, operand⟩ | ⟨c, call, within⟩ := written.fresh
        · obtain ⟨source, hs⟩ := List.length_eq_one_iff.mp one
          exfalso
          simp_all
        · obtain ⟨h, hi, hh⟩ := sure_input found operand
          simp [matrixExpression, primitive, signature, hi, sure_receiver hh]
        · have kernel := sure_kernelCall (w := w) found within []
          unfold matrixExpression
          split
          · next primitive signature => simp [KernelCall.matrix?, primitive, signature] at call
          · next primitive signature => simp [KernelCall.matrix?, primitive, signature] at call
          · rw [call]
            exact kernel
      refine failsOnly_emit expression fun right _ => ?_
      exact failsOnly_emit (sure_leftSide ht) fun left _ => failsOnly_ok _

end
end Writer

theorem Form.kind_of_copy? {left right : Kind} {form : Form} (h : copy? left right = some form) :
    right ≠ .sequence := by
  unfold copy? at h
  split at h <;> cases h <;> simp

namespace Instruction

variable {t : Table} {a w source target : Handle} {form : Form} {left right : Kind}

theorem writtenScalar_element {indices : List Handle}
    (count : indices.length = 1 ∨ indices.length = 2) :
    WrittenScalar t ⟨.element, .bare, a :: indices, some w, none, none, []⟩ := by
  obtain one | two := count
  · exact .kernel (by simp [KernelCall.scalar?, one]; rfl) (by simp [KernelCall.Within, Argument.Within, one])
  · exact .kernel (by simp [KernelCall.scalar?, two]; rfl) (by simp [KernelCall.Within, Argument.Within, two])

theorem writtenScalar_copy (hs : t.kind? source = some left) (found : Form.copy? left right = some form)
    (scalar : right.isScalar) : (Construction.copying form source target none).WrittenScalar t := by
  cases left with
  | matrix =>
      cases right <;> cases found <;> cases scalar
      exact .kernel rfl (by simp [Construction.copying, KernelCall.Within, KernelCall.unary, Argument.Within])
  | integer | double =>
      refine .expression (by simp [Construction.copying, hs, Kind.isScalar]) ?_
      cases right <;> cases found <;> rfl
  | sequence => cases right <;> cases found

theorem writtenMatrix_copy (found : Form.copy? left right = some form) (matrix : right = .matrix) :
    (Construction.copying form source target none).WrittenMatrix := by
  subst matrix
  cases left <;> cases found
  exact ⟨fun _ => ⟨.leftRows, .leftCols, _, rfl, Nat.one_pos, Nat.one_pos, rfl,
    by simp [Construction.copying, KernelCall.Within, KernelCall.unary, Argument.Within]⟩, .inl ⟨rfl, rfl, rfl⟩⟩

end Instruction

namespace Writer

variable {w : Writer} {t : Table} {a o source target : Handle} {range : List Handle} {form : Form}

/-- What a range selects can be written. -/
theorem sure_extent {addressing : Addressing} (grounded : t.Grounded) (selects : t.Selects range)
    (classified : Addressing.classify t range = .ok addressing) {e : Extent}
    (part : e.handles ⊆ addressing.handles) (length : String) : Sure (w.extent t e length) :=
  Extent.sure_render fun h hh =>
    have found := grounded.isSome_addressed selects (Outcome.toOption_eq_some.mpr classified) h (part hh)
    ⟨found, sure_index found⟩

theorem sure_extraction (grounded : t.Grounded) (ha : (t.get? a).isSome) (selects : t.Selects range) :
    Sure (w.extraction t ⟨.extract, .bare, [a], some o, some range, none, []⟩) := by
  refine failsOnly_bind.mpr ⟨failsOnly_of_isSome (grounded.isSome_classify selects),
    fun addressing classified => ?_⟩
  have extent {e : Extent} (part : e.handles ⊆ addressing.handles) (length : String) :=
    sure_extent (w := w) grounded selects classified part length
  refine failsOnly_bind.mpr ⟨failsOnly_ok a, ?_⟩
  rintro _ ⟨⟩
  refine failsOnly_bind.mpr ⟨sure_receiver ha, fun whole _ => ?_⟩
  refine failsOnly_bind.mpr ⟨sure_reference ha, fun source _ => ?_⟩
  cases addressing with
  | flat elements => exact failsOnly_map.mpr (extent (List.Subset.refl _) _)
  | grid rows cols =>
      refine failsOnly_bind.mpr ⟨extent (List.subset_append_left _ _) _, fun r _ => ?_⟩
      refine failsOnly_bind.mpr ⟨extent (List.subset_append_right _ _) _, fun c _ => ?_⟩
      cases r <;> cases c <;> exact failsOnly_pure _

theorem sure_copySource {left right : Kind} (found : Form.copyRange? left right = some form)
    (hs : (t.get? source).isSome) (ht : (t.get? target).isSome) :
    Sure (w.copySource t (Construction.copying form source target (some range)) source target) := by
  unfold Form.copyRange? at found
  split at found <;> cases found <;>
    simp [copySource, Construction.copying, sure_receiver ht, sure_reference hs, sure_double hs]

theorem sure_copyRangeStatements {left right : Kind} (grounded : t.Grounded)
    (hs : (t.get? source).isSome) (ht : (t.get? target).isSome)
    (found : Form.copyRange? left right = some form) (selects : t.Selects range) :
    Sure (w.copyRangeStatements t (Construction.copying form source target (some range)) target) := by
  refine failsOnly_bind.mpr ⟨failsOnly_ok source, ?_⟩
  rintro _ ⟨⟩
  refine failsOnly_bind.mpr ⟨failsOnly_of_isSome (grounded.isSome_classify selects),
    fun addressing classified => ?_⟩
  have extent {e : Extent} (part : e.handles ⊆ addressing.handles) (length : String) :=
    sure_extent (w := w) grounded selects classified part length
  refine failsOnly_bind.mpr ⟨sure_receiver ht, fun whole _ => ?_⟩
  refine failsOnly_bind.mpr ⟨sure_mutable ht, fun written _ => ?_⟩
  refine failsOnly_bind.mpr ⟨sure_copySource found hs ht, fun pair _ => ?_⟩
  cases addressing with
  | flat elements => exact failsOnly_map.mpr (extent (List.Subset.refl _) _)
  | grid rows cols =>
      refine failsOnly_bind.mpr ⟨extent (List.subset_append_left _ _) _, fun r _ => ?_⟩
      refine failsOnly_bind.mpr ⟨extent (List.subset_append_right _ _) _, fun c _ => ?_⟩
      cases r <;> cases c <;> exact failsOnly_pure _


theorem sure_item {h : Handle} {kind : Kind} (hk : t.kind? h = some kind) (other : kind ≠ .sequence) :
    Sure (w.item t h) := by
  have found := Table.isSome_get?_of_kind? hk
  rw [item, Table.fetchKind_eq_ok hk]
  cases kind with
  | matrix => exact failsOnly_map.mpr (sure_receiver found)
  | integer | double => exact failsOnly_map.mpr (sure_double found)
  | sequence => exact absurd rfl other

theorem sure_assembleStatement {rows : List (List Handle)}
    (items : ∀ h ∈ rows.flatten, ∃ kind, t.kind? h = some kind ∧ kind ≠ .sequence)
    (ht : (t.get? target).isSome) (s : String) :
    Sure ((w.assembleStatement t ⟨.assemble, .bare, [], some target, none, some rows, []⟩ target).run.run
      s).1 := by
  refine failsOnly_run_bind (failsOnly_run_mapM (fun row hr s => ?_) s) fun texts s' _ => ?_
  · refine failsOnly_run_bind (failsOnly_run_mapM (fun h hh s => ?_) s) fun _ _ _ => failsOnly_ok _
    obtain ⟨kind, hk, other⟩ := items h (List.mem_flatten.mpr ⟨row, hr, hh⟩)
    exact failsOnly_run_outcome (sure_item hk other) s
  · exact failsOnly_emit (sure_leftSide ht) fun left _ => failsOnly_ok _

section

variable {i : Instruction} {kind : Kind} (found : ∀ h ∈ i.inputs, (t.get? h).isSome)
  (output : i.output = some target) (whole : i.isPartial = false) (other : i.primitive ≠ .assemble)
  (hk : t.kind? target = some kind)

include found output whole other hk

/-- The kind of the target decides on the statement. -/
theorem sure_plainStatement (scalar : kind.isScalar → i.WrittenScalar t)
    (matrix : kind = .matrix → i.WrittenMatrix) (plain : kind ≠ .sequence) (s : String) :
    Sure ((w.statement t i).run.run s).1 := by
  have ht := Table.isSome_get?_of_kind? hk
  have ok : i.target = .ok target := by rw [Instruction.target, output]
  rw [Instruction.isPartial] at whole
  refine failsOnly_emit (by rw [ok]; exact failsOnly_ok _) fun target' same => ?_
  obtain rfl : target = target' := by simpa [ok] using same
  rw [if_neg (by simp [whole]), if_neg other]
  refine failsOnly_emit (by rw [Table.fetchKind_eq_ok hk]; exact failsOnly_ok _) fun kind' same => ?_
  obtain rfl : kind = kind' := by simpa [Table.fetchKind_eq_ok hk] using same
  cases kind with
  | integer | double => exact sure_scalarStatement found (scalar rfl) ht s
  | matrix => exact sure_matrixStatement found (matrix rfl) ht s
  | sequence => exact absurd rfl plain

end

theorem sure_extract (grounded : t.Grounded) (ha : (t.get? a).isSome) (selects : t.Selects range)
    (ho : t.kind? o = some .matrix) (s : String) :
    Sure ((w.statement t ⟨.extract, .bare, [a], some o, some range, none, []⟩).run.run s).1 := by
  refine failsOnly_emit (failsOnly_ok o) ?_
  rintro _ ⟨⟩
  refine failsOnly_emit (by rw [Table.fetchKind_eq_ok ho]; exact failsOnly_ok _) fun kind same => ?_
  obtain rfl : .matrix = kind := by simpa [Table.fetchKind_eq_ok ho] using same
  refine failsOnly_emit (sure_extraction grounded ha selects) fun right _ => ?_
  exact failsOnly_emit (sure_leftSide (Table.isSome_get?_of_kind? ho)) fun left _ => failsOnly_ok _

theorem sure_copyRange {left right : Kind} (grounded : t.Grounded) (hs : (t.get? source).isSome)
    (ht : (t.get? target).isSome) (found : Form.copyRange? left right = some form)
    (selects : t.Selects range) (s : String) :
    Sure ((w.statement t (Construction.copying form source target (some range))).run.run s).1 := by
  refine failsOnly_emit (failsOnly_ok target) ?_
  rintro _ ⟨⟩
  rw [if_pos (by simp [Construction.copying, (Form.primitive_of_copyRange? found).1])]
  refine failsOnly_emit (sure_copyRangeStatements grounded hs ht found selects) fun lines _ => ?_
  refine failsOnly_run_bind (failsOnly_ok _) fun _ s' _ => ?_
  exact failsOnly_run_bind (failsOnly_run_forM (fun _ _ _ => failsOnly_ok _) s') fun _ _ _ => failsOnly_ok _

/-- Every fitting instruction can be written. -/
theorem sure_statement {i : Instruction} (fits : i.Fits t) (grounded : t.Grounded) (s : String) :
    Sure ((w.statement t i).run.run s).1 := by
  have found {h : Handle} {kind : Kind} (hk : t.kind? h = some kind) : (t.get? h).isSome :=
    Table.isSome_get?_of_kind? hk
  have inputs : ∀ h ∈ i.inputs, (t.get? h).isSome := fun _ => (fits.covered grounded).input
  cases fits with
  | unary ha form hw =>
      exact sure_plainStatement inputs rfl (Bool.and_false _) (Form.ne_assemble_of_unary? form) hw
        (Instruction.writtenScalar_unary ha form) (Instruction.writtenMatrix_unary form)
        (Form.kind_of_unary? form) s
  | binary ha hb form hw =>
      exact sure_plainStatement inputs rfl (Bool.and_false _) (Form.ne_assemble_of_binary? form) hw
        (Instruction.writtenScalar_binary ha hb form) (Instruction.writtenMatrix_binary form)
        (Form.kind_of_binary? form) s
  | assemble items hw =>
      exact failsOnly_run_bind (failsOnly_ok _) fun _ _ ran => by
        cases ran
        exact sure_assembleStatement items (found hw) s
  | extract ha selects hw => exact sure_extract grounded (found ha) selects hw s
  | element ha count integers hw =>
      exact sure_plainStatement inputs rfl rfl (by simp) hw
        (fun _ => Instruction.writtenScalar_element count) (by simp) (by simp) s
  | copy hs ht form =>
      exact sure_plainStatement inputs rfl (Bool.and_false _)
        (by simp [Construction.copying, Form.primitive_of_copy? form]) ht
        (Instruction.writtenScalar_copy hs form) (Instruction.writtenMatrix_copy form)
        (Form.kind_of_copy? form) s
  | copyRange hs ht form selects => exact sure_copyRange grounded (found hs) (found ht) form selects s

theorem sure_declaration {h : Handle} (found : (t.get? h).isSome) (indent s : String) :
    Sure ((w.declaration t indent h).run.run s).1 := by
  obtain ⟨v, hv⟩ := Option.isSome_iff_exists.mp found
  have ok : t.lookup h = .ok v := by simp [Table.lookup, hv]
  refine failsOnly_emit (by rw [ok]; exact failsOnly_ok _) fun v' _ => ?_
  cases v'.temporary with
  | false => exact failsOnly_ok _
  | true => cases v'.kind <;> exact failsOnly_ok _

theorem sure_textOf {x : Emission Unit} (sure : Sure (x.run.run "").1) : Sure (textOf x) := by
  unfold textOf
  cases hx : x.run.run "" with
  | mk r text =>
      rw [hx] at sure
      cases r with
      | ok _ => exact failsOnly_ok _
      | error e => exact (sure e rfl).elim

/-- The text of a program whose instructions fit. -/
theorem sure_body {p : Program} (fits : ∀ i ∈ p.instructions, i.Fits t) (grounded : t.Grounded) :
    Sure (w.body t p) :=
  sure_textOf (failsOnly_run_forM (fun i hi s => sure_statement (fits i hi) grounded s) "")

end Writer

namespace Compilation

variable {e : Equation}

/-- A ready equation can be written out, whatever the options. -/
theorem sure_generate (ready : e.draft.Ready) (options : Options) :
    Sure ((generate options).run.run e).1 := by
  rw [generate, run_get_bind]
  refine failsOnly_run_bind (failsOnly_optimizeWhen ready fun t i grounded fits =>
    Writer.sure_fold (fits.covered grounded)) fun report e' ran => ?_
  replace ready := ready_of_optimizeWhen ready ran
  have covered : ∀ i ∈ e'.program.instructions, i.Covered e'.context.table := ready.covered
  obtain ⟨hs, listed⟩ := Option.isSome_iff_exists.mp (Program.isSome_temporaries covered)
  rw [run_get_bind]
  refine failsOnly_run_bind ?_ fun hs' e'' ran' => ?_
  · rw [run_outcome]
    exact failsOnly_of_isSome (by simp [listed])
  rw [Yields, run_outcome, Outcome.toOption_eq_some.mp listed] at ran'
  cases ran'
  refine failsOnly_run_bind ?_ fun header e'' ran'' => ?_
  · rw [run_outcome]
    refine Writer.sure_textOf (failsOnly_run_forM (fun h hh s => Writer.sure_declaration ?_ _ s) "")
    obtain ⟨-, v, hv, -⟩ := ((Program.temporaries_spec listed).2 h).mp hh
    simp [hv]
  rw [Yields, run_outcome] at ran''
  obtain ⟨-, rfl⟩ := Prod.mk.inj ran''
  refine failsOnly_run_bind ?_ fun body _ _ => failsOnly_ok _
  rw [run_outcome]
  exact Writer.sure_body ready.fits ready.grounded

end Compilation

end MatrixCode
