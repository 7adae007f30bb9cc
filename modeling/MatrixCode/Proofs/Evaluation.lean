import MatrixCode.Proofs.Addressing
import MatrixCode.Proofs.Computation

/-!
Evaluation under a renaming of handles. What an instruction would write depends on
the values that it reads and on nothing else, so an instruction whose handles are
renamed writes the same value as before in every state where the new handles are
read like the old ones.
-/

namespace MatrixCode
namespace Effect

/-- The same effect on another variable. -/
def retarget (f : Handle → Handle) (e : Effect) : Effect := { e with target := f e.target }

end Effect

namespace Instruction

/-- Every handle that the instruction reads a value of. -/
def sources (t : Table) (i : Instruction) : List Handle :=
  i.inputs ++ (i.range.getD []).flatMap t.through ++ i.items

/-- The steps on which the form of the instruction's ranges depends. -/
def steps (t : Table) (i : Instruction) : List Handle :=
  (i.range.getD []).flatMap fun h => ((t.range? h).bind IndexRange.step?).toList

/-- The instruction writes into a part of its target and keeps the rest. -/
def isPartial (i : Instruction) : Bool := i.primitive = .copy && i.range.isSome

@[simp] theorem toOption_input (i : Instruction) (position : Nat) :
    (i.input position).toOption = i.inputs[position]? := by
  unfold input
  cases i.inputs[position]? <;> rfl

@[simp] theorem toOption_target (i : Instruction) : i.target.toOption = i.output := by
  unfold target
  cases i.output <;> rfl

@[simp] theorem toOption_kernel {α : Type} (i : Instruction) (r : Except Fault α) :
    (i.kernel r).toOption = r.toOption := by
  simp [kernel]

/-- What is written, and how the source is read, is found out before the first write. -/
theorem completed_writePart (i : Instruction) (t : Table) (s : Store) (source target : Handle)
    (addressing : Addressing) (whole : Matrix Float) :
    completed (i.writePart t s source target addressing) whole =
      addressing.resolve whole.rows whole.cols (s.index t) >>= fun region =>
        match i.signature with
        | .mm => (if source = target then pure whole else s.matrix t source) >>= fun part =>
            completed (i.insertPart part region) whole
        | .sm => s.double t source >>= fun x => completed (i.fillPart x region) whole
        | _ => throw i.unimplemented := by
  rw [writePart, completed_get_bind, completed_lift_bind]
  congr 1
  funext region
  cases i.signature with
  | mm | sm => exact completed_lift_bind ..
  | _ => rfl

/-- The value that an instruction writes into its target, and the generator after it. -/
def result (i : Instruction) (t : Table) (m : Machine) (w : Handle) : Option (Value × Generator) :=
  if i.isPartial then (i.copyRangeResult t m.store w).toOption.map (Value.matrix ·, m.generator)
  else if i.primitive = .assemble then
    (i.assembleResult t m.store).toOption.map (Value.matrix ·, m.generator)
  else (t.kind? w).bind fun
    | .integer => (i.integerResult t m.store m.generator).toOption.map fun r => (.integer r.1, r.2)
    | .double => (i.doubleResult t m.store).toOption.map (Value.double ·, m.generator)
    | .matrix => (i.matrixResult t m.store m.generator w).toOption.map fun r => (.matrix r.1, r.2)
    | .sequence => none

theorem toOption_evaluate (i : Instruction) (t : Table) (m : Machine) :
    (i.evaluate t m).toOption =
      i.output.bind fun w => (i.result t m w).map fun r => ⟨w, r.1, r.2⟩ := by
  simp only [evaluate, Outcome.toOption_bind, toOption_target]
  congr 1
  funext w
  simp only [result]
  by_cases hp : i.isPartial = true
  · rw [if_pos hp]
    simp only [isPartial] at hp
    rw [if_pos hp, Outcome.toOption_bind]
    cases (i.copyRangeResult t m.store w).toOption <;> rfl
  · rw [if_neg hp]
    simp only [isPartial] at hp
    rw [if_neg hp]
    split
    · rw [Outcome.toOption_bind]
      cases (i.assembleResult t m.store).toOption <;> rfl
    · rw [Outcome.toOption_bind, Table.toOption_fetchKind]
      cases t.kind? w with
      | none => rfl
      | some kind =>
          cases kind with
          | integer =>
              simp only [Option.bind_some, Outcome.toOption_bind]
              cases (i.integerResult t m.store m.generator).toOption <;> rfl
          | double =>
              simp only [Option.bind_some, Outcome.toOption_bind]
              cases (i.doubleResult t m.store).toOption <;> rfl
          | matrix =>
              simp only [Option.bind_some, Outcome.toOption_bind]
              cases (i.matrixResult t m.store m.generator w).toOption <;> rfl
          | sequence => rfl

section Rename

variable {f : Handle → Handle} {t t' : Table} {s s' : Store} {i : Instruction}

@[simp] theorem rename_primitive : (i.rename f).primitive = i.primitive := rfl

@[simp] theorem rename_signature : (i.rename f).signature = i.signature := rfl

@[simp] theorem rename_inputs : (i.rename f).inputs = i.inputs.map f := rfl

@[simp] theorem rename_output : (i.rename f).output = i.output.map f := rfl

@[simp] theorem rename_opName : (i.rename f).opName = i.opName := rfl

@[simp] theorem rename_unimplemented : (i.rename f).unimplemented = i.unimplemented := rfl

@[simp] theorem rename_range : (i.rename f).range = i.range.map (·.map f) := rfl

@[simp] theorem rename_blocks : (i.rename f).blocks = i.blocks.map (·.map (·.map f)) := rfl

@[simp] theorem rename_dimensions : (i.rename f).dimensions = i.dimensions := rfl

theorem getD_rename_range : (i.rename f).range.getD [] = (i.range.getD []).map f := by
  cases hr : i.range <;> simp [hr]

@[simp] theorem rename_isPlainCopy : (i.rename f).isPlainCopy = i.isPlainCopy := by
  unfold isPlainCopy
  rw [rename_range, Option.isNone_map, rename_primitive, rename_signature]

@[simp] theorem rename_isPartial : (i.rename f).isPartial = i.isPartial := by
  unfold isPartial
  rw [rename_range, Option.isSome_map, rename_primitive]

theorem rename_id (i : Instruction) : i.rename id = i := by
  simp [rename]

theorem toOption_matrixInput_rename (h : ∀ k ∈ i.inputs, SameReading t t' s s' k (f k))
    (position : Nat) :
    ((i.rename f).matrixInput t' s' position).toOption =
      (i.matrixInput t s position).toOption := by
  simp only [matrixInput, Outcome.toOption_bind, toOption_input, rename_inputs, List.getElem?_map]
  cases hk : i.inputs[position]? with
  | none => rfl
  | some k => exact (h k (List.mem_of_getElem? hk)).matrix

theorem toOption_doubleInput_rename (h : ∀ k ∈ i.inputs, SameReading t t' s s' k (f k))
    (position : Nat) :
    ((i.rename f).doubleInput t' s' position).toOption =
      (i.doubleInput t s position).toOption := by
  simp only [doubleInput, Outcome.toOption_bind, toOption_input, rename_inputs, List.getElem?_map]
  cases hk : i.inputs[position]? with
  | none => rfl
  | some k => exact (h k (List.mem_of_getElem? hk)).double

theorem toOption_integerInput_rename (h : ∀ k ∈ i.inputs, SameReading t t' s s' k (f k))
    (position : Nat) :
    ((i.rename f).integerInput t' s' position).toOption =
      (i.integerInput t s position).toOption := by
  simp only [integerInput, Outcome.toOption_bind, toOption_input, rename_inputs, List.getElem?_map]
  cases hk : i.inputs[position]? with
  | none => rfl
  | some k => exact (h k (List.mem_of_getElem? hk)).integer

theorem toOption_integerResult_rename (g : Generator)
    (h : ∀ k ∈ i.inputs, SameReading t t' s s' k (f k)) :
    ((i.rename f).integerResult t' s' g).toOption = (i.integerResult t s g).toOption := by
  have arguments : ((i.inputs.map f).mapM (s'.integer t')).toOption =
      (i.inputs.mapM (s.integer t)).toOption := by
    rw [Outcome.toOption_mapM, Outcome.toOption_mapM, List.mapM_map]
    exact Outcome.mapM_congr fun k hk => (h k hk).integer
  unfold integerResult
  simp only [rename_primitive, rename_signature, rename_inputs]
  generalize i.primitive = p
  generalize i.signature = σ
  split
  all_goals
    simp only [rename_opName, Outcome.toOption_bind, Outcome.toOption_throw, arguments,
      toOption_integerInput_rename h]

theorem toOption_doubleResult_rename (h : ∀ k ∈ i.inputs, SameReading t t' s s' k (f k)) :
    ((i.rename f).doubleResult t' s').toOption = (i.doubleResult t s).toOption := by
  have arguments : ((i.inputs.map f).mapM (s'.double t')).toOption =
      (i.inputs.mapM (s.double t)).toOption := by
    rw [Outcome.toOption_mapM, Outcome.toOption_mapM, List.mapM_map]
    exact Outcome.mapM_congr fun k hk => (h k hk).double
  unfold doubleResult
  simp only [rename_primitive, rename_signature, rename_inputs, List.length_map]
  generalize i.primitive = p
  generalize i.signature = σ
  split
  all_goals
    simp only [Outcome.toOption_bind, Outcome.toOption_pure, Outcome.toOption_throw, toOption_kernel,
      rename_unimplemented, arguments, toOption_matrixInput_rename h, toOption_doubleInput_rename h]
  -- what is left is the access to an element, by one index or by two
  congr 1
  funext a
  split <;> simp [toOption_integerInput_rename h]

theorem toOption_targetShape_rename (h : ∀ k ∈ i.inputs, SameReading t t' s s' k (f k)) :
    ((i.rename f).targetShape t' s').toOption = (i.targetShape t s).toOption := by
  unfold targetShape
  simp only [rename_dimensions]
  generalize i.dimensions = dimensions
  split
  · next rows cols => cases rows <;> cases cols <;> simp [toOption_matrixInput_rename h]
  · rfl

theorem toOption_inPlaceResult_rename (h : ∀ k ∈ i.inputs, SameReading t t' s s' k (f k)) :
    ((i.rename f).inPlaceResult t' s').toOption = (i.inPlaceResult t s).toOption := by
  unfold inPlaceResult writeInto
  simp only [rename_primitive, Outcome.toOption_bind, toOption_targetShape_rename h,
    toOption_matrixInput_rename h]
  generalize i.primitive = p
  congr 1
  funext shape
  congr 1
  funext a
  split <;> simp [toOption_matrixInput_rename h]

/-- The reading of all that an instruction reads, and the form of its ranges, are kept
by a renaming. -/
structure ReadsAlike (f : Handle → Handle) (t t' : Table) (s s' : Store) (i : Instruction) :
    Prop where
  sources : ∀ k ∈ i.sources t, SameReading t t' s s' k (f k)
  content : ∀ k ∈ i.range.getD [], t'.content? (f k) = (t.content? k).map (.map f)
  steps : ∀ k ∈ i.steps t, t'.isOne? (f k) = t.isOne? k

namespace ReadsAlike

theorem inputs (r : ReadsAlike f t t' s s' i) : ∀ k ∈ i.inputs, SameReading t t' s s' k (f k) :=
  fun k hk => r.sources k (by simp [Instruction.sources, hk])

theorem items (r : ReadsAlike f t t' s s' i) : ∀ k ∈ i.items, SameReading t t' s s' k (f k) :=
  fun k hk => r.sources k (by simp [Instruction.sources, hk])

theorem classify (r : ReadsAlike f t t' s s' i) {range : List Handle} (hr : i.range = some range) :
    (Addressing.classify t' (range.map f)).toOption =
      (Addressing.classify t range).toOption.map (.map f) := by
  apply Addressing.toOption_classify_map
  · intro k hk
    exact r.content k (by simpa [hr] using hk)
  · intro k hk q hq j hj
    refine r.steps j (List.mem_flatMap.mpr ⟨k, by simpa [hr] using hk, ?_⟩)
    simpa [hq] using hj

theorem resolve (r : ReadsAlike f t t' s s' i) {range : List Handle} (hr : i.range = some range)
    {a : Addressing} (ha : (Addressing.classify t range).toOption = some a) (rows cols : Nat) :
    ((a.map f).resolve rows cols (s'.index t')).toOption =
      (a.resolve rows cols (s.index t)).toOption := by
  apply Addressing.toOption_resolve_map
  intro k hk
  have through := Addressing.handles_of_classify ha k hk
  exact (r.sources k (by simp [Instruction.sources, hr, through])).index

end ReadsAlike

theorem toOption_extractResult_rename (r : ReadsAlike f t t' s s' i) :
    ((i.rename f).extractResult t' s').toOption = (i.extractResult t s).toOption := by
  unfold extractResult
  cases hr : i.range with
  | none => simp [rename, hr]
  | some range =>
      simp only [rename_range, hr, Option.map_some, Outcome.toOption_bind, r.classify hr,
        toOption_matrixInput_rename r.inputs]
      cases ha : (Addressing.classify t range).toOption with
      | none => rfl
      | some a =>
          simp only [Option.map_some, Option.bind_some]
          congr 1
          funext m
          rw [r.resolve hr ha]
          congr 1

theorem toOption_freshResult_rename (g : Generator) (r : ReadsAlike f t t' s s' i) :
    (completed ((i.rename f).freshResult t' s') g).toOption = (completed (i.freshResult t s) g).toOption := by
  unfold freshResult
  simp only [rename_primitive, rename_signature]
  generalize i.primitive = p
  generalize i.signature = σ
  split
  all_goals
    simp only [completed_lift, completed_lift_bind, completed_stateful, completed_throw, Outcome.toOption_map,
      Outcome.toOption_bind, Outcome.toOption_pure, Outcome.toOption_error, toOption_kernel,
      toOption_matrixInput_rename r.inputs, toOption_doubleInput_rename r.inputs,
      toOption_integerInput_rename r.inputs, toOption_extractResult_rename r]

theorem toOption_assembleResult_rename (r : ReadsAlike f t t' s s' i) :
    ((i.rename f).assembleResult t' s').toOption = (i.assembleResult t s).toOption := by
  unfold assembleResult
  cases hb : i.blocks with
  | none => simp [rename, hb]
  | some blocks =>
      have row (ks : List Handle) (hks : ks ∈ blocks) :
          ((ks.map f).mapM (itemValue t' s')).toOption = (ks.mapM (itemValue t s)).toOption := by
        rw [Outcome.toOption_mapM, Outcome.toOption_mapM, List.mapM_map]
        refine Outcome.mapM_congr fun k hk => (r.items k ?_).itemValue
        simp only [Instruction.items, hb, Option.getD_some]
        exact List.mem_flatten.mpr ⟨ks, hks, hk⟩
      simp only [rename_blocks, hb, Option.map_some, Outcome.toOption_bind, toOption_kernel]
      rw [Outcome.toOption_mapM, Outcome.toOption_mapM, List.mapM_map]
      congr 1
      exact Outcome.mapM_congr row

theorem toOption_insertPart_rename (part : Matrix Float) (region : Region) (whole : Matrix Float) :
    (completed ((i.rename f).insertPart part region) whole).toOption =
      (completed (i.insertPart part region) whole).toOption := by
  unfold insertPart
  split <;> simp only [completed_stateful, toOption_kernel]

theorem toOption_fillPart_rename (x : Float) (region : Region) (whole : Matrix Float) :
    (completed ((i.rename f).fillPart x region) whole).toOption =
      (completed (i.fillPart x region) whole).toOption := by
  unfold fillPart
  split <;> simp only [completed_stateful, toOption_kernel]

theorem toOption_copyRangeResult_rename {w : Handle}
    (r : ReadsAlike f t t' (s.erase w) (s'.erase (f w)) i)
    (hw : s'.matrix? (f w) = s.matrix? w) (apart : ∀ k ∈ i.inputs, f k = f w → k = w) :
    ((i.rename f).copyRangeResult t' s' (f w)).toOption = (i.copyRangeResult t s w).toOption := by
  unfold copyRangeResult
  simp only [rename_range, Outcome.toOption_bind, toOption_input, rename_inputs, List.getElem?_map, hw]
  cases hk : i.inputs[0]? with
  | none => simp only [Option.map_none, Option.bind_none]
  | some k =>
      have hk := List.mem_of_getElem? hk
      have same : f k = f w ↔ k = w := ⟨apart k hk, fun h => h ▸ rfl⟩
      simp only [Option.map_some, Option.bind_some]
      cases hr : i.range with
      | none => simp only [Option.map_none, Outcome.toOption_throw]
      | some range =>
          simp only [Option.map_some, Outcome.toOption_bind, r.classify hr]
          cases ha : (Addressing.classify t range).toOption with
          | none => simp only [Option.map_none, Option.bind_none]
          | some a =>
              simp only [Option.map_some, Option.bind_some]
              cases s.matrix? w with
              | none => simp
              | some whole =>
                  simp only [Outcome.toOption_bind, completed_writePart, rename_signature, r.resolve hr ha]
                  congr 2
                  funext region
                  generalize i.signature = σ
                  split
                  · simp only [same, Outcome.toOption_ite, Outcome.toOption_bind,
                      (r.inputs k hk).matrix, toOption_insertPart_rename]
                  · simp only [Outcome.toOption_bind, (r.inputs k hk).double, toOption_fillPart_rename]
                  · simp only [Outcome.toOption_throw]

/-- A renaming keeps all that an instruction depends on. A matrix is written in place
when it is none of the operands, and a part of it is written while the rest of it
cannot be read; for both the renaming has to keep the target apart from what is read. -/
structure Carries (f : Handle → Handle) (t t' : Table) (s s' : Store) (i : Instruction) :
    Prop where
  reads : ReadsAlike f t t' s s' i
  target : ∀ w, i.output = some w → t'.kind? (f w) = t.kind? w
  apart : ∀ w, i.output = some w → t.kind? w = some .matrix ∨ i.isPartial →
    ∀ k ∈ i.sources t, f k = f w → k = w
  whole : ∀ w, i.output = some w → i.isPartial → s'.matrix? (f w) = s.matrix? w
  rest : ∀ w, i.output = some w → i.isPartial →
    ReadsAlike f t t' (s.erase w) (s'.erase (f w)) i

theorem toOption_matrixResult_rename (g : Generator) {w : Handle} (r : ReadsAlike f t t' s s' i)
    (apart : ∀ k ∈ i.inputs, f k = f w → k = w) :
    ((i.rename f).matrixResult t' s' g (f w)).toOption = (i.matrixResult t s g w).toOption := by
  have contained : (i.inputs.map f).contains (f w) = i.inputs.contains w := by
    rw [Bool.eq_iff_iff]
    simp only [List.contains_iff_mem, List.mem_map]
    exact ⟨fun ⟨k, hk, hf⟩ => apart k hk hf ▸ hk, fun hw => ⟨w, hw, rfl⟩⟩
  have inPlace : (i.rename f).writesInPlace = i.writesInPlace := rfl
  simp only [matrixResult, rename_inputs, contained, inPlace, Outcome.toOption_ite,
    Outcome.toOption_bind, toOption_inPlaceResult_rename r.inputs, toOption_freshResult_rename g r]

theorem result_rename (g : Generator) (c : Carries f t t' s s' i) {w : Handle}
    (hw : i.output = some w) :
    (i.rename f).result t' ⟨s', g⟩ (f w) = i.result t ⟨s, g⟩ w := by
  have inputs (k : Handle) (hk : k ∈ i.inputs) : k ∈ i.sources t := by simp [sources, hk]
  simp only [result, rename_isPartial, rename_primitive, c.target w hw, toOption_assembleResult_rename c.reads,
    toOption_integerResult_rename g c.reads.inputs, toOption_doubleResult_rename c.reads.inputs]
  split
  · next hp =>
      rw [toOption_copyRangeResult_rename (c.rest w hw hp) (c.whole w hw hp)
        fun k hk => c.apart w hw (.inr hp) k (inputs k hk)]
  · split
    · rfl
    · cases hk : t.kind? w with
      | none => rfl
      | some kind =>
          cases kind with
          | integer | double | sequence => rfl
          | matrix =>
              have apart := fun k hm => c.apart w hw (.inl hk) k (inputs k hm)
              simp only [Option.bind_some, toOption_matrixResult_rename g c.reads apart]

/-- A renaming that keeps what an instruction depends on keeps what it writes. -/
theorem toOption_evaluate_rename (g : Generator) (c : Carries f t t' s s' i) :
    ((i.rename f).evaluate t' ⟨s', g⟩).toOption =
      (i.evaluate t ⟨s, g⟩).toOption.map (.retarget f) := by
  rw [toOption_evaluate, toOption_evaluate, rename_output]
  cases hw : i.output with
  | none => rfl
  | some w =>
      simp only [Option.map_some, Option.bind_some, result_rename g c hw]
      cases i.result t ⟨s, g⟩ w <;> rfl

end Rename

theorem output_of_evaluate {i : Instruction} {t : Table} {m : Machine} {e : Effect}
    (he : (i.evaluate t m).toOption = some e) : i.output = some e.target := by
  rw [toOption_evaluate] at he
  obtain ⟨w, hw, he⟩ := Option.bind_eq_some_iff.mp he
  obtain ⟨r, -, rfl⟩ := Option.map_eq_some_iff.mp he
  exact hw

end Instruction
end MatrixCode
