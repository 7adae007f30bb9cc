import MatrixCode.Proofs.Blocks
import MatrixCode.Proofs.Evaluation

/-!
Instructions are atomic. The machine takes a matrix out of the store to write it in place or in a
part. In the first case it puts the old matrix back when the writing fails. In the second it puts back
what the writing left, which is the old matrix as well, since every part is checked as a whole before
anything is written. A store is given by what it binds, so the old matrix restores it, and carrying out
an instruction comes to the same as evaluating it on the state as it is and writing one variable after
that.
-/

namespace MatrixCode

namespace Store

/-- Ascending entries bind nothing below the first handle. -/
theorem lookup_eq_none {k : Handle} {entries : List (Handle × Value)}
    (above : ∀ entry ∈ entries, k.index < entry.1.index) : entries.lookup k = none := by
  induction entries with
  | nil => rfl
  | cons entry entries ih =>
      obtain ⟨first, rest⟩ := List.forall_mem_cons.mp above
      have other : k ≠ entry.1 := fun same => Nat.ne_of_lt first (congrArg Handle.index same)
      rw [show entry = (entry.1, entry.2) from rfl, lookup_cons, if_neg other, ih rest]

/-- Ascending entries that bind the same are the same. -/
theorem entries_unique {as bs : List (Handle × Value)}
    (ordered : as.Pairwise fun a b => a.1.index < b.1.index)
    (ordered' : bs.Pairwise fun a b => a.1.index < b.1.index)
    (same : ∀ k, as.lookup k = bs.lookup k) : as = bs := by
  induction as generalizing bs with
  | nil =>
      cases bs with
      | nil => rfl
      | cons b bs => cases (same b.1).trans (List.lookup_cons_self ..)
  | cons a as ih =>
      cases bs with
      | nil => cases (same a.1).symm.trans (List.lookup_cons_self ..)
      | cons b bs =>
          obtain ⟨h, x⟩ := a
          obtain ⟨k, y⟩ := b
          obtain ⟨above, tail⟩ := List.pairwise_cons.mp ordered
          obtain ⟨above', tail'⟩ := List.pairwise_cons.mp ordered'
          simp only [lookup_cons] at same
          obtain rfl : h = k := by
            rcases Nat.lt_trichotomy h.index k.index with lt | eq | gt
            · have missing : bs.lookup h = none :=
                lookup_eq_none fun entry mem => Nat.lt_trans lt (above' entry mem)
              exact Decidable.byContradiction fun other => by simpa [missing, other] using same h
            · exact congrArg Handle.mk eq
            · have missing : as.lookup k = none :=
                lookup_eq_none fun entry mem => Nat.lt_trans gt (above entry mem)
              exact Decidable.byContradiction fun other => by
                simpa [missing, Ne.symm other] using same k
          obtain rfl : x = y := by simpa using same h
          rw [ih tail tail' fun l => ?_]
          by_cases hl : l = h
          · rw [hl, lookup_eq_none above, lookup_eq_none above']
          · simpa [hl] using same l

/-- A store is given by what it binds. -/
theorem ext_get? {s s' : Store} (same : ∀ k, s.get? k = s'.get? k) : s = s' := by
  obtain ⟨as, ha⟩ := s
  obtain ⟨bs, hb⟩ := s'
  obtain rfl : as = bs := entries_unique ha hb same
  rfl

theorem get?_of_matrix? {s : Store} {h : Handle} {x : Matrix Float} (hx : s.matrix? h = some x) :
    s.get? h = some (.matrix x) := by
  obtain ⟨value, bound, holds⟩ := Option.bind_eq_some_iff.mp hx
  cases value with
  | matrix y =>
      cases holds
      exact bound
  | integer _ | double _ => cases holds

/-- What was taken out is put back. -/
theorem set_erase {s : Store} {h : Handle} {x : Matrix Float} (hx : s.matrix? h = some x) :
    (s.erase h).set h (.matrix x) = s := by
  refine ext_get? fun k => ?_
  by_cases hk : k = h
  · simp [hk, get?_of_matrix? hx]
  · simp [hk]

/-- A value that is replaced does not matter. -/
theorem erase_set (s : Store) (h : Handle) (value : Value) :
    (s.erase h).set h value = s.set h value := by
  refine ext_get? fun k => ?_
  by_cases hk : k = h <;> simp [hk]

theorem takeMatrix_of_some {s : Store} {h : Handle} {x : Matrix Float} (held : s.matrix? h = some x) :
    s.takeMatrix h = (some x, s.erase h) := by
  rw [takeMatrix, held]

theorem takeMatrix_of_none {s : Store} {h : Handle} (missing : s.matrix? h = none) :
    s.takeMatrix h = (none, s) := by
  rw [takeMatrix, missing]

theorem set_takeMatrix (s : Store) (h : Handle) (value : Value) :
    ((s.takeMatrix h).2).set h value = s.set h value := by
  unfold takeMatrix
  split
  · exact erase_set s h value
  · rfl

theorem matrix_takeMatrix (s : Store) (t : Table) {h k : Handle} (other : k ≠ h) :
    ((s.takeMatrix h).2).matrix t k = s.matrix t k := by
  unfold takeMatrix
  split
  · simp [matrix, other]
  · rfl

end Store

/-- What can be overwritten is found out before the first write. -/
theorem Overwrites.atomic {α : Type} {write : Overwriting α Unit} {target after : Matrix α} {p : Prop}
    (w : Overwrites write target p after) : Atomic write target := by
  intro fault left failed
  by_cases hp : p
  · cases (w.ok hp).symm.trans failed
  · obtain ⟨_, kept⟩ := w.error hp
    exact (Prod.mk.inj (failed.symm.trans kept)).2

/-- The dimensions are checked before the first sample is drawn. -/
theorem Sampling.atomic_matrix (sample : Generator → Float × Generator) (rows cols : Int64)
    (g : Generator) : Atomic (Sampling.matrix sample rows cols) g := by
  refine .check _ fun rows => .check _ fun cols => ?_
  rintro _ _ ⟨⟩

namespace Instruction

variable {i : Instruction} {t : Table} {h : Handle}

theorem atomic_insertPart (part : Matrix Float) (region : Region) (whole : Matrix Float) :
    Atomic (i.insertPart part region) whole := by
  unfold insertPart
  split
  · exact (Matrix.overwrites_insertFlat ..).atomic.stateful i
  · exact (Matrix.overwrites_insertBlock ..).atomic.stateful i
  · exact (Matrix.overwrites_insertIndices ..).atomic.stateful i

theorem atomic_fillPart (x : Float) (region : Region) (whole : Matrix Float) :
    Atomic (i.fillPart x region) whole := by
  unfold fillPart
  split
  · exact (Matrix.overwrites_fillFlat ..).atomic.stateful i
  · exact (Matrix.overwrites_fillBlock ..).atomic.stateful i
  · exact (Matrix.overwrites_fillIndices ..).atomic.stateful i

theorem atomic_writePart (s : Store) (source target : Handle) (addressing : Addressing)
    (whole : Matrix Float) : Atomic (i.writePart t s source target addressing) whole := by
  unfold writePart
  refine .look (.check _ fun region => ?_)
  cases i.signature with
  | mm => exact .check _ fun part => atomic_insertPart part region whole
  | sm => exact .check _ fun x => atomic_fillPart x region whole
  | _ => exact .throw _

theorem atomic_freshResult (s : Store) (g : Generator) : Atomic (i.freshResult t s) g := by
  simp only [freshResult]
  split
  case h_43 | h_44 =>
    exact .check _ fun rows => .check _ fun cols => (Sampling.atomic_matrix _ rows cols g).stateful i
  case h_46 => exact .throw _
  all_goals exact .lift _

theorem matrixInput_takeMatrix (s : Store) (apart : h ∉ i.inputs) (position : Nat) :
    i.matrixInput t (s.takeMatrix h).2 position = i.matrixInput t s position := by
  unfold matrixInput input
  cases hk : i.inputs[position]? with
  | none => rfl
  | some k =>
      have other : k ≠ h := fun same => apart (same ▸ List.mem_of_getElem? hk)
      exact Store.matrix_takeMatrix s t other

/-- The operands are read as if the target were still there. -/
theorem writeInto_takeMatrix (s : Store) (apart : h ∉ i.inputs) (target : Matrix Float) :
    i.writeInto t (s.takeMatrix h).2 target = i.writeInto t s target := by
  simp only [writeInto, matrixInput_takeMatrix s apart]

end Instruction

namespace Machine

variable {t : Table} {i : Instruction}

/-- The state when an instruction has been evaluated: written on success, as it was on failure. -/
def settle (m : Machine) : Outcome Effect → Outcome Unit × Machine
  | .ok e => (.ok (), m.apply e)
  | .error x => (.error x, m)

/-- What comes behind an outcome that leaves the machine alone. -/
theorem run_bind_settle {α : Type} (o : Outcome α) {f : α → Execution Unit} {f' : α → Outcome Effect}
    {m : Machine} (each : ∀ a, (f a).run.run m = m.settle (f' a)) :
    ((liftM o : Execution α) >>= f).run.run m = m.settle (o >>= f') := by
  cases o with
  | ok a => exact each a
  | error x => rfl

theorem run_takeMatrix_bind {β : Type} (h : Handle) (f : Option (Matrix Float) → Execution β) (m : Machine) :
    (takeMatrix h >>= f).run.run m =
      (f (m.store.takeMatrix h).1).run.run { m with store := (m.store.takeMatrix h).2 } := rfl

/-- The old matrix is put back, if there was one. -/
theorem run_executeInPlace (m : Machine) {target : Handle} (apart : target ∉ i.inputs) :
    (executeInPlace t i target).run.run m =
      m.settle do return ⟨target, .matrix (← i.inPlaceResult t m.store), m.generator⟩ := by
  rw [executeInPlace, run_get_bind, Instruction.inPlaceResult, bind_assoc]
  refine run_bind_settle _ fun (rows, cols) => ?_
  rw [run_takeMatrix_bind, run_get_bind, Instruction.writeInto_takeMatrix m.store apart]
  change _ = m.settle (i.writeInto t m.store (.fill rows cols 0.0) >>= _)
  cases i.writeInto t m.store (.fill rows cols 0.0) with
  | ok new => exact congrArg (fun s => (Except.ok (), Machine.mk s m.generator)) (Store.set_takeMatrix ..)
  | error e =>
      cases held : m.store.matrix? target with
      | none =>
          rw [Store.takeMatrix_of_none held]
          rfl
      | some old =>
          rw [Store.takeMatrix_of_some held]
          exact congrArg (fun s => (Except.error e, Machine.mk s m.generator)) (Store.set_erase held)

theorem run_drawing {α : Type} {x : Drawing α} {m : Machine} (atomic : Atomic x m.generator) :
    (drawing x).run.run m = match completed x m.generator with
      | .ok (a, g) => (.ok a, { m with generator := g })
      | .error e => (.error e, m) := by
  change ((x.run.run m.generator).1, { m with generator := (x.run.run m.generator).2 }) = _
  rw [atomic.run_eq]
  cases completed x m.generator <;> rfl

theorem run_executeAnew (m : Machine) (target : Handle) :
    (executeAnew t i target).run.run m =
      m.settle do
        let (x, g) ← completed (i.freshResult t m.store) m.generator
        return ⟨target, .matrix x, g⟩ := by
  rw [executeAnew, run_get_bind, ExceptT.run_bind, StateT.run_bind,
    run_drawing (Instruction.atomic_freshResult m.store m.generator)]
  cases completed (i.freshResult t m.store) m.generator <;> rfl

/-- What a failed write leaves of the target is the target. -/
theorem run_executePart (m : Machine) (target : Handle) :
    (executePart t i target).run.run m =
      m.settle do return ⟨target, .matrix (← i.copyRangeResult t m.store target), m.generator⟩ := by
  rw [executePart, Instruction.copyRangeResult, bind_assoc]
  refine run_bind_settle _ fun source => ?_
  cases i.range with
  | none => rfl
  | some range =>
      rw [bind_assoc]
      refine run_bind_settle _ fun addressing => ?_
      rw [run_takeMatrix_bind]
      cases held : m.store.matrix? target with
      | none =>
          rw [Store.takeMatrix_of_none held]
          cases t.fetch target <;> rfl
      | some whole =>
          rw [Store.takeMatrix_of_some held, run_get_bind]
          dsimp only
          rw [(Instruction.atomic_writePart (m.store.erase target) source target addressing whole).run_eq]
          cases completed (i.writePart t (m.store.erase target) source target addressing) whole with
          | ok r => exact congrArg (fun s => (Except.ok (), Machine.mk s m.generator)) (Store.erase_set ..)
          | error e =>
              exact congrArg (fun s => (Except.error e, Machine.mk s m.generator)) (Store.set_erase held)

/-- To carry out an instruction is to evaluate it on the state as it is and to write the result. -/
theorem run_execute (t : Table) (i : Instruction) (m : Machine) :
    (execute t i).run.run m = m.settle (i.evaluate t m) := by
  rw [execute, Instruction.evaluate]
  refine run_bind_settle _ fun target => ?_
  by_cases partial_ : (i.primitive = .copy && i.range.isSome) = true
  · rw [if_pos partial_, if_pos partial_]
    exact run_executePart m target
  by_cases assembled : i.primitive = .assemble
  · rw [if_neg partial_, if_neg partial_, if_pos assembled, if_pos assembled, run_get_bind]
    exact run_bind_settle _ fun _ => rfl
  rw [if_neg partial_, if_neg partial_, if_neg assembled, if_neg assembled]
  refine run_bind_settle _ fun kind => ?_
  cases kind with
  | integer =>
      rw [run_get_bind]
      refine run_bind_settle _ fun _ => ?_
      rfl
  | double =>
      rw [run_get_bind]
      refine run_bind_settle _ fun _ => ?_
      rfl
  | matrix =>
      simp only [Instruction.matrixResult]
      by_cases inPlace : (i.writesInPlace && !i.inputs.contains target) = true
      · have apart : target ∉ i.inputs := by
          simpa using (Bool.and_eq_true_iff.mp inPlace).2
        rw [if_pos inPlace, if_pos inPlace, run_executeInPlace m apart]
        cases i.inPlaceResult t m.store <;> rfl
      · rw [if_neg inPlace, if_neg inPlace]
        exact run_executeAnew m target
  | sequence => rfl

/-- An instruction that fails changes nothing, and one that succeeds changes its output only. -/
theorem execute_atomic (t : Table) (i : Instruction) (m m' : Machine) :
    (Fails (execute t i) m m' →
      (∀ h, m'.store.get? h = m.store.get? h) ∧ m'.generator = m.generator) ∧
    (Yields (execute t i) m () m' → ∃ target, i.output = some target ∧
      (m'.store.get? target).isSome ∧ ∀ h, h ≠ target → m'.store.get? h = m.store.get? h) := by
  refine ⟨fun ⟨failure, failed⟩ => ?_, fun ran => ?_⟩
  · rw [run_execute] at failed
    cases evaluated : i.evaluate t m with
    | ok effect =>
        rw [evaluated] at failed
        cases failed
    | error x =>
        rw [evaluated] at failed
        obtain ⟨-, rfl⟩ := Prod.mk.inj failed
        exact ⟨fun _ => rfl, rfl⟩
  · rw [Yields, run_execute] at ran
    cases evaluated : i.evaluate t m with
    | error x =>
        rw [evaluated] at ran
        cases ran
    | ok effect =>
        rw [evaluated] at ran
        obtain ⟨-, rfl⟩ := Prod.mk.inj ran
        refine ⟨effect.target, ?_, ?_, fun h other => ?_⟩
        · exact Instruction.output_of_evaluate (by rw [evaluated, Outcome.toOption_ok])
        · simp [apply]
        · simp [apply, other]

end Machine
end MatrixCode
