import MatrixCode.Proofs.Optimization

/-!
What the optimizer does to a draft, one step at a time. A variable becomes an expression,
instructions are left out, or a variable gives way to another one of its kind. Every pass is a
succession of such steps, under any policy and with any folder, and also when it fails half
way. So what each step keeps is kept by the optimizer.
-/

namespace MatrixCode

section

variable {σ α β : Type} {r : σ → σ → Prop}

/-- Whether the computation succeeds or fails, it takes the state along by steps. -/
def StepsBy (r : σ → σ → Prop) (x : ExceptT Failure (StateM σ) α) : Prop :=
  ∀ s, Relation.ReflTransGen r s (x.run.run s).2

theorem stepsBy_pure (a : α) : StepsBy r (pure a) := fun _ => .refl

theorem stepsBy_get : StepsBy r (get : ExceptT Failure (StateM σ) σ) := fun _ => .refl

theorem stepsBy_outcome (o : Outcome α) : StepsBy r (liftM o) := by
  intro s
  rw [run_outcome]

theorem StepsBy.bind {x : ExceptT Failure (StateM σ) α} {f : α → ExceptT Failure (StateM σ) β}
    (first : StepsBy r x) (rest : ∀ a, StepsBy r (f a)) : StepsBy r (x >>= f) := by
  intro s
  have here := first s
  rw [ExceptT.run_bind, StateT.run_bind]
  cases hx : x.run.run s with
  | mk result s₁ =>
      rw [hx] at here
      cases result with
      | error e => exact here
      | ok a => exact here.trans (rest a s₁)

theorem StepsBy.tryCatch {x : ExceptT Failure (StateM σ) α} {f : Failure → ExceptT Failure (StateM σ) α}
    (first : StepsBy r x) (rest : ∀ failure, StepsBy r (f failure)) : StepsBy r (tryCatch x f) := by
  intro s
  have here := first s
  rw [run_tryCatch]
  cases hx : x.run.run s with
  | mk result s₁ =>
      rw [hx] at here
      cases result with
      | ok a => exact here
      | error failure => exact here.trans (rest failure s₁)

theorem stepsBy_mapM {f : α → ExceptT Failure (StateM σ) β} (each : ∀ a, StepsBy r (f a))
    (as : List α) : StepsBy r (as.mapM f) := by
  induction as with
  | nil => exact stepsBy_pure []
  | cons a as ih =>
      rw [List.mapM_cons]
      exact (each a).bind fun _ => ih.bind fun _ => stepsBy_pure _

/-- What steps keep is kept by a succession of them. -/
theorem StepsBy.keeps {x : ExceptT Failure (StateM σ) α} (steps : StepsBy r x) {p : σ → Prop}
    (kept : ∀ s s', r s s' → p s → p s') {s : σ} (hs : p s) : p (x.run.run s).2 := by
  have chain := steps s
  generalize (x.run.run s).2 = s' at chain
  induction chain with
  | refl => exact hs
  | tail _ step ih => exact kept _ _ step ih

end

theorem Variable.kind_mapRange (f : Handle → Handle) (v : Variable) : (v.mapRange f).kind = v.kind :=
  congrArg Appearance.kind (v.appearance_mapRange f)

theorem Table.kind?_renameWithin (t : Table) (source target : Handle) (hs : List Handle) (h : Handle) :
    (t.renameWithin source target hs).kind? h = t.kind? h := by
  rw [kind?, kind?, get?_renameWithin, Option.map_map]
  congr 1
  funext v
  simp only [Function.comp_apply]
  split
  · exact v.kind_mapRange _
  · rfl

/-- With the folder, the output of some instruction becomes the expression. -/
def Folding.Turns (folder : Folder) (t : Table) (h : Handle) (e : ScalarText) : Prop :=
  ∃ policy i, step policy folder t i = .ok (some (h, e))

namespace Draft

/-- One step of the optimizer. -/
inductive Step (folder : Folder) : Draft → Draft → Prop where
  /-- A variable becomes an expression. -/
  | fold (d : Draft) (h : Handle) (e : ScalarText) (turns : Folding.Turns folder d.workspace.table h e) :
      Step folder d { d with workspace := d.workspace.fold h e }
  /-- Some instructions are left out. -/
  | restrict (d : Draft) (p : Program) (kept : p.instructions ⊆ d.program.instructions) :
      Step folder d { d with program := p }
  /-- A variable gives way to another one of its kind. -/
  | replace (d : Draft) {source target : Handle} {kind : Kind}
      (hs : d.workspace.table.kind? source = some kind)
      (ht : d.workspace.table.kind? target = some kind) : Step folder d (d.replace source target)

end Draft

theorem Draft.kind?_replace (d : Draft) (source target h : Handle) :
    (d.replace source target).workspace.table.kind? h = d.workspace.table.kind? h := by
  rw [Draft.table_replace, Table.kind?_renameWithin]

theorem Folding.steps_run (policy : Policy) (folder : Folder) (w : Workspace) (is : List Instruction) :
    (run policy folder w is).instructions ⊆ is ∧
      Relation.ReflTransGen (fun w w' => ∃ h e, Turns folder w.table h e ∧ w' = Workspace.fold w h e) w
        (run policy folder w is).workspace := by
  fun_induction run policy folder w is with
  | case1 w => exact ⟨List.Subset.refl _, .refl⟩
  | case2 w last => exact ⟨List.Subset.refl _, .refl⟩
  | case3 w i next rest e failed => exact ⟨List.Subset.refl _, .refl⟩
  | case4 w i next rest kept f ih => exact ⟨List.cons_subset_cons i ih.1, ih.2⟩
  | case5 w i next rest o e folded f ih =>
      exact ⟨List.subset_cons_of_subset i ih.1, .head ⟨o, e, ⟨policy, i, folded⟩, rfl⟩ ih.2⟩

namespace Drafting

open Relation (ReflTransGen)

theorem stepsBy_query {α : Type} {r : Draft → Draft → Prop} (f : Program → Table → Outcome α) :
    StepsBy r (query f) := by
  intro d
  rw [run_query]

theorem stepsBy_foldConstants (policy : Policy) (folder : Folder) :
    StepsBy (Draft.Step folder) (foldConstants policy folder) := by
  intro d
  obtain ⟨kept, folds⟩ := Folding.steps_run policy folder d.workspace d.program.instructions
  rw [run_foldConstants]
  have folded := folds.lift (fun w : Workspace => { d with workspace := w }) (p := Draft.Step folder)
    (by rintro w _ ⟨h, e, turns, rfl⟩; exact .fold { d with workspace := w } h e turns)
  exact folded.tail (.restrict _ _ kept)

/-- The source of a final copy that is dropped is of the kind of its target. -/
theorem stepsBy_dropTrailingCopy (folder : Folder) :
    StepsBy (Draft.Step folder) dropTrailingCopy := by
  intro d
  have asked := run_query Program.trailingCopy? d
  rw [dropTrailingCopy, ExceptT.run_bind, StateT.run_bind, asked]
  cases answer : d.program.trailingCopy? d.workspace.table with
  | error e => exact .refl
  | ok found =>
      cases found with
      | none => exact .refl
      | some pair =>
          obtain ⟨source, target⟩ := pair
          obtain ⟨body, last, ends⟩ :=
            Program.endsInCopy_of_trailingCopy? (Outcome.toOption_eq_some.mpr answer)
          obtain ⟨v, hv, -⟩ := ends.temporary
          have hs : d.workspace.table.kind? source = some v.kind := by simp [Table.kind?, hv]
          have shorter : Draft.Step folder d d.withoutLast := .restrict _ _ (List.dropLast_subset _)
          have replaced : Draft.Step folder d.withoutLast (d.withoutLast.replace source target) :=
            .replace d.withoutLast hs (ends.kind ▸ hs)
          exact ((ReflTransGen.single shorter).tail replaced).tail
            (.restrict _ _ (List.Subset.refl _))

/-- Replacements of variables of one kind, one after the other. -/
theorem steps_replaceAll {folder : Folder} (kind : Kind) (plan : List (Handle × Handle)) (d : Draft)
    (alike : ∀ pair ∈ plan, d.workspace.table.kind? pair.1 = some kind ∧
      d.workspace.table.kind? pair.2 = some kind) :
    ReflTransGen (Draft.Step folder) d (plan.foldl (fun d (later, earlier) => d.replace later earlier) d) := by
  induction plan generalizing d with
  | nil => exact .refl
  | cons pair plan ih =>
      obtain ⟨⟨hs, ht⟩, rest⟩ := List.forall_mem_cons.mp alike
      refine .head (.replace d hs ht) (ih _ fun pair hp => ?_)
      rw [Draft.kind?_replace, Draft.kind?_replace]
      exact rest pair hp

theorem stepsBy_shareTemporaries (folder : Folder) (kind : Kind) :
    StepsBy (Draft.Step folder) (shareTemporaries kind) := by
  intro d
  have asked := run_query Usage.ofProgram d
  rw [shareTemporaries, ExceptT.run_bind, StateT.run_bind, asked]
  cases answer : Usage.ofProgram d.program d.workspace.table with
  | error e => exact .refl
  | ok u =>
      have desc := Usage.describes_of_ofProgram (Outcome.toOption_eq_some.mpr answer)
      refine steps_replaceAll kind _ d fun pair hp => ?_
      obtain ⟨later, earlier⟩ := Sharing.mem_of_mem_plan hp
      exact ⟨(desc.isTemporary later).2, (desc.isTemporary earlier).2⟩

/-- The optimizer goes by steps, also when it fails. -/
theorem stepsBy_optimize (policy : Policy) (folder : Folder) :
    StepsBy (Draft.Step folder) (optimize policy folder) :=
  stepsBy_get.bind fun _ => (stepsBy_query _).bind fun _ =>
    (stepsBy_foldConstants policy folder).bind fun _ => (stepsBy_dropTrailingCopy folder).bind fun _ =>
      (stepsBy_shareTemporaries folder .integer).bind fun _ =>
        (stepsBy_shareTemporaries folder .double).bind fun _ =>
          (stepsBy_shareTemporaries folder .matrix).bind fun _ => stepsBy_get.bind fun _ =>
            (stepsBy_query _).bind fun _ => stepsBy_pure _

end Drafting
end MatrixCode
