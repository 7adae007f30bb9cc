import MatrixCode.Proofs.Dispatch
import MatrixCode.Proofs.Execution

/-!
Drafts that are ready: all instructions fit, and the table is grounded. Every step of the optimizer
leaves a draft ready, so the passes find what they look up, and an optimization fails only where
the folder does. A run of a ready draft fails only because of values.
-/

namespace MatrixCode

section

variable {σ α β : Type} {Q : Failure → Prop}

/-- A succession of computations fails only as one of them does. -/
theorem failsOnly_run_bind {x : ExceptT Failure (StateM σ) α} {f : α → ExceptT Failure (StateM σ) β}
    {s : σ} (first : FailsOnly Q (x.run.run s).1)
    (rest : ∀ a s', Yields x s a s' → FailsOnly Q ((f a).run.run s').1) :
    FailsOnly Q ((x >>= f).run.run s).1 := by
  rw [ExceptT.run_bind, StateT.run_bind]
  cases hx : x.run.run s with
  | mk r s' =>
      cases r with
      | ok a => exact rest a s' hx
      | error e =>
          rw [hx] at first
          exact failsOnly_error.mpr (failsOnly_error.mp first)

theorem failsOnly_run_forM {f : α → ExceptT Failure (StateM σ) Unit} {xs : List α}
    (each : ∀ x ∈ xs, ∀ s, FailsOnly Q ((f x).run.run s).1) (s : σ) :
    FailsOnly Q ((xs.forM f).run.run s).1 := by
  induction xs generalizing s with
  | nil => exact failsOnly_ok _
  | cons x xs ih =>
      exact failsOnly_run_bind (each x (by simp) s) fun _ s' _ => ih (fun y hy => each y (by simp [hy])) s'

theorem failsOnly_run_mapM {f : α → ExceptT Failure (StateM σ) β} {xs : List α}
    (each : ∀ x ∈ xs, ∀ s, FailsOnly Q ((f x).run.run s).1) (s : σ) :
    FailsOnly Q ((xs.mapM f).run.run s).1 := by
  induction xs generalizing s with
  | nil => exact failsOnly_ok _
  | cons x xs ih =>
      rw [List.mapM_cons]
      refine failsOnly_run_bind (each x (by simp) s) fun _ s' _ => ?_
      exact failsOnly_run_bind (ih (fun y hy => each y (by simp [hy])) s') fun _ _ _ => failsOnly_ok _

end

namespace Folding

variable {policy : Policy} {folder : Folder} {Q : Failure → Prop} {t : Table} {i : Instruction}

/-- An instruction is looked at in the table, and then the folder is asked. -/
theorem failsOnly_step (covered : i.Covered t) (folds : FailsOnly Q (folder t i)) :
    FailsOnly Q (step policy folder t i) := by
  have candidate : (candidate? policy t i).toOption.isSome := by
    obtain ⟨o, -, h⟩ | ⟨-, h⟩ := toOption_candidate? policy covered <;> simp [h]
  have literals : (literals? t i.inputs).toOption.isSome := by
    simp [toOption_literals? fun _ => covered.input]
  have expression : FailsOnly Q (expression? folder t i) := by
    refine failsOnly_ite.mpr ⟨fun _ => ?_, fun _ => folds⟩
    refine failsOnly_bind.mpr ⟨failsOnly_of_isSome literals, fun words _ => ?_⟩
    cases words with
    | some arguments => exact failsOnly_pure _
    | none => exact folds
  refine failsOnly_bind.mpr ⟨failsOnly_of_isSome candidate, fun output _ => ?_⟩
  cases output with
  | some o => exact failsOnly_map.mpr expression
  | none => exact failsOnly_pure _

/-- Folding stops only where the folder fails. -/
theorem failure_run {w : Workspace} {is : List Instruction}
    (folds : ∀ t i, t.Grounded → i.Fits t → FailsOnly Q (folder t i)) (grounded : w.table.Grounded)
    (fits : ∀ i ∈ is, i.Fits w.table) {e : Failure}
    (failed : (run policy folder w is).failure = some e) : Q e := by
  fun_induction run policy folder w is with
  | case1 w => cases failed
  | case2 w last => cases failed
  | case3 w i next rest e' stopped =>
      cases failed
      have first := fits i (by simp)
      exact failsOnly_step (first.covered grounded) (folds _ i grounded first) e stopped
  | case4 w i next rest kept f ih => exact ih grounded (fun j hj => fits j (by simp [hj])) failed
  | case5 w i next rest o e' folded f ih =>
      have step : Draft.Step folder ⟨w, next :: rest, none⟩ ⟨w.fold o e', next :: rest, none⟩ :=
        .fold _ o e' ⟨policy, i, folded⟩
      exact ih (step.grounded grounded) (step.fits fun j hj => fits j (by simp [hj])) failed

end Folding

namespace Draft

/-- The instructions of the draft fit, and so do the ranges. -/
structure Ready (d : Draft) : Prop where
  fits : d.Fits
  grounded : d.workspace.table.Grounded

theorem Ready.covered {d : Draft} (ready : d.Ready) :
    ∀ i ∈ d.program.instructions, i.Covered d.workspace.table :=
  fun i hi => (ready.fits i hi).covered ready.grounded

theorem Step.ready {folder : Folder} {d d' : Draft} (step : Step folder d d') (ready : d.Ready) : d'.Ready :=
  ⟨step.fits ready.fits, step.grounded ready.grounded⟩

end Draft

namespace Drafting

variable {policy : Policy} {folder : Folder} {Q : Failure → Prop} {d : Draft}

/-- What steps leave is ready. -/
theorem ready_of_yields (folder : Folder) {α : Type} {x : Drafting α}
    (steps : StepsBy (Draft.Step folder) x) (ready : d.Ready) {a : α} {d' : Draft} (ran : Yields x d a d') : d'.Ready := by
  have after := steps.keeps (p := Draft.Ready) (fun _ _ => Draft.Step.ready) ready
  rwa [ran] at after

theorem failsOnly_query {α : Type} {f : Program → Table → Outcome α}
    (h : (f d.program d.workspace.table).toOption.isSome) : FailsOnly Q ((query f).run.run d).1 := by
  rw [run_query]
  exact failsOnly_of_isSome h

theorem failsOnly_foldConstants (ready : d.Ready)
    (folds : ∀ t i, t.Grounded → i.Fits t → FailsOnly Q (folder t i)) :
    FailsOnly Q ((foldConstants policy folder).run.run d).1 := by
  rw [run_foldConstants]
  cases failure : (Folding.run policy folder d.workspace d.program.instructions).failure with
  | none => exact failsOnly_ok _
  | some e => exact failsOnly_error.mpr (Folding.failure_run folds ready.grounded ready.fits failure)

theorem failsOnly_dropTrailingCopy (ready : d.Ready) : FailsOnly Q (dropTrailingCopy.run.run d).1 := by
  have searchable := Program.searchable_of_covered ready.covered
  refine failsOnly_run_bind (failsOnly_query ?_) fun found d' _ => ?_
  · simp [Program.toOption_trailingCopy? searchable]
  · cases found <;> exact failsOnly_ok _

theorem failsOnly_shareTemporaries (ready : d.Ready) (kind : Kind) :
    FailsOnly Q ((shareTemporaries kind).run.run d).1 :=
  failsOnly_run_bind (failsOnly_query (Usage.isSome_ofProgram ready.covered))
    fun _ _ _ => failsOnly_ok _

/-- An optimization fails only as the folder does. -/
theorem failsOnly_optimize (ready : d.Ready)
    (folds : ∀ t i, t.Grounded → i.Fits t → FailsOnly Q (folder t i)) :
    FailsOnly Q ((optimize policy folder).run.run d).1 := by
  have counted {d : Draft} (ready : d.Ready) :
      FailsOnly Q ((query Program.countTemporaries).run.run d).1 :=
    failsOnly_query (Program.isSome_countTemporaries ready.covered)
  refine failsOnly_run_bind (failsOnly_ok d) fun _ d₀ ran => ?_
  replace ready := ready_of_yields folder stepsBy_get ready ran
  refine failsOnly_run_bind (counted ready) fun _ d₁ ran => ?_
  replace ready := ready_of_yields folder (stepsBy_query _) ready ran
  refine failsOnly_run_bind (failsOnly_foldConstants ready folds) fun _ d₂ ran => ?_
  replace ready := ready_of_yields folder (stepsBy_foldConstants policy folder) ready ran
  refine failsOnly_run_bind (failsOnly_dropTrailingCopy ready) fun _ d₃ ran => ?_
  replace ready := ready_of_yields folder (stepsBy_dropTrailingCopy folder) ready ran
  refine failsOnly_run_bind (failsOnly_shareTemporaries ready .integer) fun _ d₄ ran => ?_
  replace ready := ready_of_yields folder (stepsBy_shareTemporaries folder .integer) ready ran
  refine failsOnly_run_bind (failsOnly_shareTemporaries ready .double) fun _ d₅ ran => ?_
  replace ready := ready_of_yields folder (stepsBy_shareTemporaries folder .double) ready ran
  refine failsOnly_run_bind (failsOnly_shareTemporaries ready .matrix) fun _ d₆ ran => ?_
  replace ready := ready_of_yields folder (stepsBy_shareTemporaries folder .matrix) ready ran
  refine failsOnly_run_bind (failsOnly_ok d₆) fun _ d₇ ran => ?_
  replace ready := ready_of_yields folder stepsBy_get ready ran
  exact failsOnly_run_bind (counted ready) fun _ _ _ => failsOnly_ok _

end Drafting

/-- Whether a folder looks at an instruction is seen from its target. -/
theorem Instruction.isSome_isScalarTask {t : Table} {i : Instruction} (covered : i.Covered t) :
    (i.isScalarTask t).toOption.isSome := by
  cases ho : i.output with
  | none => simp [isScalarTask, ho]
  | some o =>
      have found := covered.mentioned o (mem_mentions_of_output ho)
      obtain ⟨v, hv⟩ := Option.isSome_iff_exists.mp found
      simp [isScalarTask, ho, Table.kind?, hv]

namespace Machine

/-- Folding by running fails only because of the values of literals. -/
theorem operational_fold {t : Table} {i : Instruction} (grounded : t.Grounded) (fits : i.Fits t) :
    Operational (fold t i) := by
  have covered := fits.covered grounded
  have literals : (areLiterals t i.inputs).toOption.isSome := by
    simp [toOption_areLiterals fun _ => covered.input]
  refine failsOnly_bind.mpr ⟨failsOnly_of_isSome (Instruction.isSome_isScalarTask covered), fun _ _ => ?_⟩
  refine failsOnly_ite.mpr ⟨fun _ => ?_, fun _ => failsOnly_pure _⟩
  refine failsOnly_bind.mpr ⟨failsOnly_of_isSome literals, fun _ _ => ?_⟩
  exact failsOnly_ite.mpr ⟨fun _ => failsOnly_map.mpr (fits.operational grounded _),
    fun _ => failsOnly_pure _⟩

theorem operational_execute {t : Table} {i : Instruction} (grounded : t.Grounded) (fits : i.Fits t)
    (m : Machine) : Operational ((execute t i).run.run m).1 := by
  have evaluated := fits.operational grounded m
  rw [run_execute]
  cases he : i.evaluate t m with
  | ok effect => exact failsOnly_ok _
  | error e =>
      rw [he] at evaluated
      exact failsOnly_error.mpr (failsOnly_error.mp evaluated)

end Machine

namespace Compilation

variable {Q : Failure → Prop} {e : Equation}

theorem failsOnly_optimizeWhen {enabled : Bool} {policy : Policy} {folder : Folder}
    (ready : e.draft.Ready) (folds : ∀ t i, t.Grounded → i.Fits t → FailsOnly Q (folder t i)) :
    FailsOnly Q ((optimizeWhen enabled policy folder).run.run e).1 := by
  cases enabled with
  | false => exact failsOnly_ok _
  | true =>
      refine failsOnly_run_bind (x := drafting _) ?_ fun _ _ _ => failsOnly_ok _
      rw [run_drafting]
      exact Drafting.failsOnly_optimize ready folds

theorem ready_of_optimizeWhen {enabled : Bool} {policy : Policy} {folder : Folder}
    (ready : e.draft.Ready) {r : Option Report} {e' : Equation}
    (ran : Yields (optimizeWhen enabled policy folder) e r e') : e'.draft.Ready := by
  cases enabled with
  | false =>
      cases ran
      exact ready
  | true =>
      obtain ⟨report, d, optimized, rfl⟩ := of_yields_optimizeWhen ran
      exact Drafting.ready_of_yields folder (Drafting.stepsBy_optimize policy folder) ready optimized

/-- A handler that cleans up and passes the failure on. -/
theorem failsOnly_cleanUp {x : Compilation Unit} (hs : List Handle) (failed : FailsOnly Q (x.run.run e).1) :
    FailsOnly Q ((tryCatch x fun failure => do forget hs; throw failure).run.run e).1 := by
  rw [run_tryCatch]
  cases hx : x.run.run e with
  | mk r e' =>
      rw [hx] at failed
      cases r with
      | ok a => exact failed
      | error failure => exact failsOnly_error.mpr (failsOnly_error.mp failed)

theorem operational_carryOut (ready : e.draft.Ready) : Operational (carryOut.run.run e).1 := by
  have covered : ∀ i ∈ e.program.instructions, i.Covered e.context.table := ready.covered
  obtain ⟨hs, listed⟩ := Option.isSome_iff_exists.mp (Program.isSome_temporaries covered)
  have found : ∀ h ∈ hs, (e.context.table.get? h).isSome := by
    intro h hh
    obtain ⟨-, v, hv, -⟩ := ((Program.temporaries_spec listed).2 h).mp hh
    simp [hv]
  obtain ⟨m, prepared, -⟩ := Machine.prepares_forM found e.context.machine
  rw [carryOut, run_get_bind]
  refine failsOnly_run_bind ?_ fun hs' e' listed' => ?_
  · rw [run_outcome]
    exact failsOnly_of_isSome (by simp [listed])
  rw [Yields, run_outcome, Outcome.toOption_eq_some.mp listed] at listed'
  cases listed'
  refine failsOnly_run_bind ?_ fun _ e' _ => ?_
  · rw [run_executing, prepared]
    exact failsOnly_ok _
  · refine failsOnly_run_bind (failsOnly_cleanUp hs ?_) fun _ _ _ => failsOnly_ok _
    rw [run_executing]
    exact failsOnly_run_forM
      (fun i hi m => Machine.operational_execute ready.grounded (ready.fits i hi) m) _

/-- An execution fails only because of values. -/
theorem operational_executed (ready : e.draft.Ready) (enabled : Bool) :
    Operational ((execute enabled).run.run e).1 := by
  rw [execute_eq]
  refine failsOnly_run_bind
    (failsOnly_optimizeWhen ready fun _ _ => Machine.operational_fold) fun _ e' ran => ?_
  exact failsOnly_run_bind (operational_carryOut (ready_of_optimizeWhen ready ran))
    fun _ _ _ => failsOnly_ok _

end Compilation
end MatrixCode
