import MatrixCode.Proofs.Aliasing

/-!
The passes of the optimizer one by one. Folding is the only pass that can fail on a draft whose
variables are all in the table; the others rename temporaries and leave all variables as they look.
So a failure of the optimizer leaves the draft as it was, or as folding left it.
-/

namespace MatrixCode

namespace Draft

/-- Temporaries are renamed, and all variables look as before. -/
structure Relabels (f : Handle → Handle) (d d' : Draft) : Prop where
  instructions : d'.program.instructions = d.program.instructions.map (.rename f)
  fixed : ∀ h, d.IsUser h → f h = h
  appearance : ∀ h, d'.workspace.table.appearance? h = d.workspace.table.appearance? h
  temporary : ∀ h, d'.workspace.table.IsTemporary h ↔ d.workspace.table.IsTemporary h

variable {d d' d'' : Draft} {f g : Handle → Handle}

theorem Relabels.refl (d : Draft) : Relabels id d d :=
  ⟨(RenamedBy.refl d).instructions, fun _ _ => rfl, fun _ => rfl, fun _ => .rfl⟩

theorem RenamedBy.relabels (renamed : RenamedBy f d d') (fixed : ∀ h, d.IsUser h → f h = h) :
    Relabels f d d' :=
  ⟨renamed.instructions, fixed, renamed.appearance?, renamed.isTemporary⟩

theorem HandsOn.relabels {kind : Kind} {u : Usage} (on : HandsOn kind u f d d') : Relabels f d d' :=
  on.renamed.relabels fun _ => on.fixed

theorem Relabels.trans (first : Relabels f d d') (second : Relabels g d' d'') :
    Relabels (g ∘ f) d d'' where
  instructions := by
    rw [second.instructions, first.instructions, List.map_map]
    congr 1
    funext i
    simp [Instruction.rename, Function.comp_def]
  fixed h user := by
    have after : d'.IsUser h := fun temporary => user ((first.temporary h).mp temporary)
    rw [Function.comp_apply, first.fixed h user, second.fixed h after]
  appearance h := (second.appearance h).trans (first.appearance h)
  temporary h := (second.temporary h).trans (first.temporary h)

end Draft

/-- Temporaries of all kinds share storage, one kind after the other. -/
theorem Drafting.exists_shareTemporaries {d : Draft}
    (covered : ∀ i ∈ d.program.instructions, i.Covered d.workspace.table) :
    ∃ n₁ n₂ n₃ d₁ d₂ d₃ f, Yields (shareTemporaries .integer) d n₁ d₁ ∧
      Yields (shareTemporaries .double) d₁ n₂ d₂ ∧ Yields (shareTemporaries .matrix) d₂ n₃ d₃ ∧
      d.Relabels f d₃ ∧ ∀ i ∈ d₃.program.instructions, i.Covered d₃.workspace.table := by
  obtain ⟨_, n₁, d₁, f₁, -, first, on₁⟩ :=
    handsOn_shareTemporaries covered (show Kind.integer ≠ .sequence by simp)
  have covered₁ := on₁.covered covered
  obtain ⟨_, n₂, d₂, f₂, -, second, on₂⟩ :=
    handsOn_shareTemporaries covered₁ (show Kind.double ≠ .sequence by simp)
  have covered₂ := on₂.covered covered₁
  obtain ⟨_, n₃, d₃, f₃, -, third, on₃⟩ :=
    handsOn_shareTemporaries covered₂ (show Kind.matrix ≠ .sequence by simp)
  exact ⟨n₁, n₂, n₃, d₁, d₂, d₃, _, first, second, third,
    (on₁.relabels.trans on₂.relabels).trans on₃.relabels, on₃.covered covered₂⟩

namespace Draft

variable {d : Draft}

/-- Without its final copy a draft mentions nothing new. -/
theorem covered_drop {body : List Instruction} {last : Instruction} {source target : Handle}
    (ends : d.program.EndsInCopy d.workspace.table body last source target)
    (copies : last.Copies d.workspace.table source target)
    (covered : ∀ i ∈ d.program.instructions, i.Covered d.workspace.table) :
    ∀ i ∈ (d.dropTrailingCopy source target).program.instructions,
      i.Covered (d.dropTrailingCopy source target).workspace.table := by
  intro i hi
  obtain ⟨j, hj, rfl⟩ := List.mem_map.mp hi
  exact (renamedBy_drop copies).covered (.replace ends.kind copies.kind_source) hj
    (covered j (List.mem_of_mem_dropLast hj))

/-- Folding leaves every plain copy in the form for its kinds. -/
theorem Formed.copies_foldedBy (formed : d.Formed) (policy : Policy) (folder : Folder)
    {i : Instruction} (hi : i ∈ (d.foldedBy policy folder).program.instructions)
    (plain : i.isPlainCopy) {target : Handle} (output : i.output = some target) :
    ∃ source, i.Copies (d.foldedBy policy folder).workspace.table source target := by
  obtain ⟨kept, content, -⟩ := d.foldedBy_spec policy folder
  obtain ⟨source, copies⟩ := formed.copies (kept hi) plain output
  refine ⟨source, copies.mono fun h kind hk => ?_⟩
  rwa [Table.kind?_eq_content?, content, ← Table.kind?_eq_content?]

end Draft

namespace Drafting

variable {d d' d₁ : Draft} {policy : Policy} {folder : Folder}

theorem exists_dropTrailingCopy
    (covered : ∀ i ∈ d.program.instructions, i.Covered d.workspace.table)
    (copies : ∀ i ∈ d.program.instructions, i.isPlainCopy → ∀ target, i.output = some target →
      ∃ source, i.Copies d.workspace.table source target) :
    ∃ b d', Yields dropTrailingCopy d b d' ∧
      ∀ i ∈ d'.program.instructions, i.Covered d'.workspace.table := by
  obtain ⟨body, last, source, target, ends, ran⟩ | ⟨-, ran⟩ :=
    yields_dropTrailingCopy (Program.searchable_of_covered covered)
  · obtain ⟨source', form⟩ := copies last (by simp [ends.split]) ends.isPlainCopy target ends.output
    obtain rfl : source' = source := by simpa [form.inputs] using ends.input
    exact ⟨true, _, ran, Draft.covered_drop ends form covered⟩
  · exact ⟨false, d, ran, covered⟩

/-- When folding succeeds, so does the optimizer. -/
theorem exists_optimize (built : d.Built)
    (covered : ∀ i ∈ d.program.instructions, i.Covered d.workspace.table) {n : Nat}
    (folded : Yields (foldConstants policy folder) d n d₁) :
    ∃ report d', Yields (optimize policy folder) d report d' := by
  obtain rfl : d.foldedBy policy folder = d₁ := by
    rw [Yields, run_foldConstants] at folded
    exact (Prod.mk.inj folded).2
  obtain ⟨kept, content, -⟩ := d.foldedBy_spec policy folder
  obtain ⟨b, d₂, dropped, covered₂⟩ := exists_dropTrailingCopy
    (fun i hi => (covered i (kept hi)).congr content)
    fun i hi plain target => built.formed.copies_foldedBy policy folder hi plain
  obtain ⟨n₁, n₂, n₃, d₃, d₄, d', f, first, second, third, -, covered'⟩ :=
    exists_shareTemporaries covered₂
  obtain ⟨before, counted⟩ := exists_query (Program.isSome_countTemporaries covered)
  obtain ⟨after, recounted⟩ := exists_query (Program.isSome_countTemporaries covered')
  exact ⟨_, d', optimize_of_passes counted folded dropped first second third recounted⟩

/-- The optimizer fails before it has changed anything, or while it folds. -/
theorem of_fails_optimize (built : d.Built) (failed : Fails (optimize policy folder) d d') :
    d' = d ∨ (∀ i ∈ d.program.instructions, i.Covered d.workspace.table) ∧
      d' = d.foldedBy policy folder := by
  by_cases covered : ∀ i ∈ d.program.instructions, i.Covered d.workspace.table
  · have ran := run_foldConstants policy folder d
    cases failure : (Folding.run policy folder d.workspace d.program.instructions).failure with
    | none =>
        rw [failure] at ran
        obtain ⟨report, d'', optimized⟩ := exists_optimize built covered ran
        exact absurd failed optimized.not_fails
    | some e =>
        rw [failure] at ran
        obtain ⟨before, counted⟩ := exists_query (Program.isSome_countTemporaries covered)
        have got : Yields (get : Drafting Draft) d d d := rfl
        have stopped : Fails (foldConstants policy folder) d (d.foldedBy policy folder) := ⟨e, ran⟩
        exact .inr ⟨covered, failed.unique (got.bind_fails (counted.bind_fails stopped.bind))⟩
  · exact .inl (failed.unique (fails_optimize covered))

end Drafting
end MatrixCode
