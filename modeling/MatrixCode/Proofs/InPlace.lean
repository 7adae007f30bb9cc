import MatrixCode.Proofs.Atomicity
import MatrixCode.Proofs.Fitting

/-!
Writing in place. The sums, products, transposes and copies of matrices are written into a target that
the dimensions of the instruction have shaped, unless the target is one of the operands; then the result
is made anew. Construction chooses the dimensions so that the target always has the shape of the result.
So both ways give the same matrix or fail in the same way, whatever the target held before, and it does
not matter which of them an optimizer leads to when it gives one temporary the place of another.
-/

namespace MatrixCode

namespace Matrix

/-- Storage that was made in a shape has this shape. -/
theorem checkTarget_fill (op : String) (rows cols : Nat) :
    checkTarget op (fill rows cols (0.0 : Float)) rows cols = pure () := by
  simp [checkTarget, shape, fill, build]

theorem entrywiseInto_fill (name : String) (op : Float → Float → Float) (a b : Matrix Float) :
    entrywiseInto name op a b (fill a.rows a.cols 0.0) = entrywise name op a b := by
  simp only [entrywiseInto, entrywise, checkTarget_fill, pure_bind]

theorem multiplyInto_fill (a b : Matrix Float) :
    a.multiplyInto b (fill a.rows b.cols 0.0) = a.multiply b := by
  simp only [multiplyInto, multiply, checkTarget_fill, pure_bind]

theorem transposeInto_fill (a : Matrix Float) :
    a.transposeInto (fill a.cols a.rows 0.0) = .ok a.transpose := by
  simp only [transposeInto, checkTarget_fill, pure_bind]
  rfl

end Matrix

namespace Instruction

/-- The dimensions give the shape of the result of an operation that writes in place. -/
def Shaped (i : Instruction) : Prop :=
  i.dimensions = match i.primitive with
    | .multiply => Form.outer
    | .transpose => Form.transposed
    | _ => Form.likeLeft

theorem Shaped.rename {i : Instruction} (shaped : i.Shaped) (f : Handle → Handle) :
    (i.rename f).Shaped := shaped

/-- Forms are chosen with the dimensions of the result. -/
theorem Fits.shaped {t : Table} {i : Instruction} (fits : i.Fits t) (inPlace : i.writesInPlace)
    (whole : i.range = none) : i.Shaped := by
  cases fits with
  | unary _ found _ =>
      unfold Form.unary? at found
      split at found <;> cases found <;> first | rfl | cases inPlace
  | binary _ _ found _ =>
      obtain ⟨signature, -, found⟩ := Option.bind_eq_some_iff.mp found
      split at found <;> cases found <;> first | rfl | cases inPlace
  | copy _ _ found =>
      unfold Form.copy? at found
      split at found <;> cases found <;> first | rfl | cases inPlace
  | assemble | extract | element => cases inPlace
  | copyRange => cases whole

variable {i : Instruction} {t : Table}

/-- Into the shaped target comes what is made anew, and what keeps one from being made keeps the other. -/
theorem freshResult_eq_inPlace (shaped : i.Shaped) (inPlace : i.writesInPlace) (s : Store) :
    i.freshResult t s = (liftM (i.inPlaceResult t s) : Drawing (Matrix Float)) := by
  rw [Shaped] at shaped
  unfold writesInPlace at inPlace
  split at inPlace
  case h_8 => cases inPlace
  all_goals
    rename_i primitive signature
    simp only [primitive] at shaped
    simp only [inPlaceResult, targetShape, writeInto, freshResult, primitive, signature, shaped,
      Form.likeLeft, Form.outer, Form.transposed]
    congr 1
  case h_6 =>
    cases i.matrixInput t s 0 with
    | error e => rfl
    | ok a => exact congrArg i.kernel a.transposeInto_fill.symm
  case h_7 =>
    cases i.matrixInput t s 0 with
    | error e => rfl
    | ok a => exact congrArg i.kernel a.copyInto_fill.symm
  -- the operations on two operands: these are read in the same order both ways
  all_goals
    cases i.matrixInput t s 0 with
    | error e => rfl
    | ok a =>
        cases i.matrixInput t s 1 with
        | error e => rfl
        | ok b =>
            refine congrArg i.kernel (Eq.symm ?_)
            first | exact a.multiplyInto_fill b | exact Matrix.entrywiseInto_fill _ _ a b

theorem completed_freshResult (shaped : i.Shaped) (inPlace : i.writesInPlace) (s : Store) (g : Generator) :
    completed (i.freshResult t s) g = (fun x => (x, g)) <$> i.inPlaceResult t s := by
  rw [freshResult_eq_inPlace shaped inPlace, completed_lift]

/-- Results of kind matrix are those that are made anew, whether they are written in place or not. -/
theorem matrixResult_eq_fresh (shaped : i.Shaped) (inPlace : i.writesInPlace) (s : Store) (g : Generator)
    (target : Handle) : i.matrixResult t s g target = completed (i.freshResult t s) g := by
  unfold matrixResult
  split
  · rw [completed_freshResult shaped inPlace, map_eq_pure_bind]
  · rfl

/-- What is written in place depends on the operands only. -/
theorem inPlaceResult_congr {s s' : Store} (same : ∀ h ∈ i.inputs, s'.get? h = s.get? h) :
    i.inPlaceResult t s' = i.inPlaceResult t s := by
  have read (position : Nat) : i.matrixInput t s' position = i.matrixInput t s position := by
    unfold matrixInput input
    cases hk : i.inputs[position]? with
    | none => rfl
    | some k =>
        change s'.matrix t k = s.matrix t k
        rw [Store.matrix, same k (List.mem_of_getElem? hk), Store.matrix]
  simp only [inPlaceResult, targetShape, writeInto, read]

end Instruction

namespace Machine

variable {t : Table} {i : Instruction} {target : Handle}

/-- The result made anew, where it is the one that is written in place. -/
theorem run_executeAnew_of_shaped (shaped : i.Shaped) (inPlace : i.writesInPlace) (m : Machine) :
    (executeAnew t i target).run.run m =
      m.settle do return ⟨target, .matrix (← i.inPlaceResult t m.store), m.generator⟩ := by
  rw [run_executeAnew, Instruction.completed_freshResult shaped inPlace]
  cases i.inPlaceResult t m.store <;> rfl

/-- A target of kind matrix is given what is made anew, whether it is written in place or not. -/
theorem run_execute_of_shaped (shaped : i.Shaped) (inPlace : i.writesInPlace) (whole : i.range = none)
    (output : i.output = some target) (matrix : t.fetchKind target = .ok .matrix) (m : Machine) :
    (execute t i).run.run m = (executeAnew t i target).run.run m := by
  have plain : ¬(i.primitive = .copy && i.range.isSome) = true := by simp [whole]
  have computes : i.primitive ≠ .assemble := by
    intro assemble
    simp [Instruction.writesInPlace, assemble] at inPlace
  have found : i.target = .ok target := by rw [Instruction.target, output]
  rw [run_execute, run_executeAnew, Instruction.evaluate, found]
  change m.settle (if _ then _ else _) = _
  rw [if_neg plain, if_neg computes, matrix]
  change m.settle (i.matrixResult t m.store m.generator target >>= _) = _
  rw [Instruction.matrixResult_eq_fresh shaped inPlace]

/-- Sums, products, transposes and copies of matrices as construction makes them, with their variables
renamed in any way. Written in place they give the machine that they give when the result is made anew, or
fail in the same way, and what the target held before makes no difference. -/
theorem executeInPlace_agrees {r : Request} {w w' : Workspace} {i : Instruction}
    (made : Yields r.perform w i w') (inPlace : i.writesInPlace) (whole : i.range = none)
    (f : Handle → Handle) {target : Handle} (output : (i.rename f).output = some target) (t : Table)
    (m : Machine) :
    (target ∉ (i.rename f).inputs → ∀ s : Store, (∀ h, h ≠ target → s.get? h = m.store.get? h) →
      (∀ m', Yields (executeAnew t (i.rename f) target) m () m' →
        Yields (executeInPlace t (i.rename f) target) { m with store := s } () m') ∧
      ∀ failure m', (executeAnew t (i.rename f) target).run.run m = (.error failure, m') → m' = m ∧
        (executeInPlace t (i.rename f) target).run.run { m with store := s } =
          (.error failure, { m with store := s })) ∧
    (t.fetchKind target = .ok .matrix →
      (execute t (i.rename f)).run.run m = (executeAnew t (i.rename f) target).run.run m) := by
  have shaped := ((Request.fits_of_perform made).shaped inPlace whole).rename f
  have writes : (i.rename f).writesInPlace := inPlace
  refine ⟨fun apart s same => ?_, fun matrix =>
    run_execute_of_shaped shaped writes (by simp [Instruction.rename, whole]) output matrix m⟩
  have operands : (i.rename f).inPlaceResult t s = (i.rename f).inPlaceResult t m.store :=
    Instruction.inPlaceResult_congr fun h hh => same h fun here => apart (here ▸ hh)
  have replaced (value : Value) : s.set target value = m.store.set target value :=
    Store.ext_get? fun h => by by_cases here : h = target <;> simp [here, same]
  simp only [Yields, run_executeAnew_of_shaped shaped writes, run_executeInPlace _ apart, operands]
  cases (i.rename f).inPlaceResult t m.store with
  | ok x =>
      refine ⟨fun m' ran => ?_, fun failure m' failed => by cases failed⟩
      rw [← ran]
      exact congrArg (fun s => (Except.ok (), Machine.mk s m.generator)) (replaced _)
  | error e =>
      refine ⟨fun m' ran => (by cases ran), fun failure m' failed => ?_⟩
      obtain ⟨same, rfl⟩ := Prod.mk.inj failed
      cases same
      exact ⟨rfl, rfl⟩

/-- A row times a column. -/
def rowByColumn : Instruction := ⟨.multiply, .mm, [⟨2⟩, ⟨3⟩], some ⟨4⟩, none, none, Form.outer⟩

/-- A workspace with two matrices. -/
def factors : Workspace :=
  ⟨(((Table.initial).add (.named "a" .matrix)).2.add (.named "b" .matrix)).2, ⟨.zero, .zero, []⟩⟩

/-- The product comes into a variable that held an integer, as into one that held nothing. -/
theorem executeInPlace_agrees_rowByColumn :
    let s := (Store.empty.set ⟨2⟩ (.matrix (.fill 1 2 1.0))).set ⟨3⟩ (.matrix (.fill 2 1 1.0))
    Yields (Request.binary .multiply ⟨2⟩ ⟨3⟩).perform factors rowByColumn (factors.create .matrix).2 ∧
      ∃ m', Yields (executeAnew (factors.create .matrix).2.table rowByColumn ⟨4⟩) ⟨s, .initial⟩ () m' ∧
        Yields (executeInPlace (factors.create .matrix).2.table rowByColumn ⟨4⟩)
          ⟨s.set ⟨4⟩ (.integer 7), .initial⟩ () m' ∧
        Yields (execute (factors.create .matrix).2.table rowByColumn) ⟨s, .initial⟩ () m' := by
  intro s
  have made : Yields (Request.binary .multiply ⟨2⟩ ⟨3⟩).perform factors rowByColumn
      (factors.create .matrix).2 := yields_of_toOption (by decide +kernel)
  have output : (rowByColumn.rename id).output = some ⟨4⟩ := rfl
  obtain ⟨agrees, executes⟩ := executeInPlace_agrees made rfl rfl id output
    (factors.create .matrix).2.table ⟨s, .initial⟩
  rw [Instruction.rename_id] at agrees executes
  obtain ⟨x, ran⟩ : ∃ m', Yields (executeAnew (factors.create .matrix).2.table rowByColumn ⟨4⟩)
      ⟨s, .initial⟩ () m' := ⟨_, rfl⟩
  refine ⟨made, x, ran, ?_, (executes rfl).trans ran⟩
  exact (agrees (by decide) _ fun h other => by simp [other]).1 x ran

end Machine
end MatrixCode
