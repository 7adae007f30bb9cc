import MatrixCode.Proofs.Packing
import MatrixCode.Proofs.Steps

/-!
A matrix is written in place, so a temporary matrix must not be among the operands that it is
computed from. The optimizer keeps it so, whatever the policy and the folder: folding only
leaves out instructions, a final copy gives way to a variable of the user, and temporaries
share storage only where no instruction mentions both.
-/

namespace MatrixCode

namespace Draft

variable {d d' : Draft}

/-- No instruction reads the temporary matrix that it writes. -/
def Unaliased (d : Draft) : Prop :=
  ∀ i ∈ d.program.instructions, ∀ w, i.output = some w → d.workspace.table.IsTemporary w →
    d.workspace.table.kind? w = some .matrix → w ∉ i.sources d.workspace.table

instance (d : Draft) : Decidable d.Unaliased :=
  inferInstanceAs (Decidable (∀ i ∈ d.program.instructions, ∀ w ∈ i.output,
    d.workspace.table.IsTemporary w → d.workspace.table.kind? w = some .matrix →
    w ∉ i.sources d.workspace.table))

namespace Unaliased

/-- A renaming that keeps the target of each instruction apart from what it reads. -/
theorem rename {f : Handle → Handle} (unaliased : d.Unaliased) (renamed : d.RenamedBy f d')
    (keeps : Table.Keeps f d.workspace.table)
    (apart : ∀ i ∈ d.program.instructions, ∀ w, i.output = some w →
      d.workspace.table.IsTemporary (f w) → d.workspace.table.kind? w = some .matrix →
      d.workspace.table.IsTemporary w ∧ ∀ k ∈ i.sources d.workspace.table, f k = f w → k = w) :
    d'.Unaliased := by
  intro i' hi' w' hw' temporary matrix read
  rw [renamed.instructions] at hi'
  obtain ⟨i, hi, rfl⟩ := List.mem_map.mp hi'
  obtain ⟨w, hw, rfl⟩ := Option.map_eq_some_iff.mp hw'
  rw [renamed.isTemporary] at temporary
  rw [renamed.kind?, keeps.kind?] at matrix
  rw [renamed.sources_rename keeps hi] at read
  obtain ⟨k, hk, same⟩ := List.mem_map.mp read
  obtain ⟨before, only⟩ := apart i hi w hw temporary matrix
  exact unaliased i hi w hw before matrix (only k hk same ▸ hk)

theorem withoutLast (unaliased : d.Unaliased) : d.withoutLast.Unaliased :=
  fun i hi => unaliased i (List.mem_of_mem_dropLast hi)

end Unaliased

/-- Folding leaves out instructions and turns temporaries into expressions; nothing else changes
for readers of the table. -/
theorem foldedBy_spec (policy : Policy) (folder : Folder) (d : Draft) :
    (d.foldedBy policy folder).program.instructions ⊆ d.program.instructions ∧
      (∀ h, (d.foldedBy policy folder).workspace.table.content? h = d.workspace.table.content? h) ∧
      ∀ h, (d.foldedBy policy folder).workspace.table.IsTemporary h →
        d.workspace.table.IsTemporary h := by
  obtain ⟨kept, steps⟩ := Folding.steps_run policy folder d.workspace d.program.instructions
  refine ⟨kept, ?_⟩
  change (∀ h, (Folding.run policy folder _ _).workspace.table.content? h = _) ∧
    ∀ h, (Folding.run policy folder _ _).workspace.table.IsTemporary h → _
  generalize (Folding.run policy folder d.workspace d.program.instructions).workspace = w at steps
  induction steps with
  | refl => exact ⟨fun _ => rfl, fun _ => id⟩
  | tail _ step ih =>
      obtain ⟨h, e, -, rfl⟩ := step
      refine ⟨fun k => (Folding.content?_fold _ h e k).trans (ih.1 k), fun k temporary => ih.2 k ?_⟩
      rw [Folding.table_fold] at temporary
      exact Table.isTemporary_of_foldInto temporary

theorem Unaliased.foldedBy (unaliased : d.Unaliased) (policy : Policy) (folder : Folder) :
    (d.foldedBy policy folder).Unaliased := by
  obtain ⟨kept, content, temporaries⟩ := d.foldedBy_spec policy folder
  intro i hi w hw temporary matrix
  rw [Instruction.sources_congr content]
  refine unaliased i (kept hi) w hw (temporaries w temporary) ?_
  rwa [Table.kind?_eq_content?, content, ← Table.kind?_eq_content?] at matrix

/-- Temporary matrices that share storage are not mentioned by one instruction. -/
theorem Unaliased.handsOn {kind : Kind} {u : Usage} {f : Handle → Handle} (unaliased : d.Unaliased)
    (on : d.HandsOn kind u f d') : d'.Unaliased := by
  refine unaliased.rename on.renamed on.keeps fun i hi w hw temporary matrix => ?_
  refine ⟨(on.isTemporary w).mp temporary, fun k hk same => ?_⟩
  by_contra other
  obtain ⟨done, rest, split⟩ := List.append_of_mem hi
  obtain ⟨a, ha, b, hb, rfl, rfl, ordered⟩ := on.shares.merged same other
  have read := on.describes.bounds ha split (Instruction.mem_mentions_of_mem_sources hk)
  have written := on.describes.bounds hb split (Instruction.mem_mentions_of_output hw)
  obtain rfl : kind = .matrix :=
    Option.some.inj ((on.describes.isTemporary (List.mem_map_of_mem hb)).2.symm.trans matrix)
  simp only [Sharing.follows, decide_true, if_true, decide_eq_true_eq] at ordered
  omega

/-- The target of a final copy is no temporary, so it can be read and written. -/
theorem Unaliased.dropTrailingCopy {body : List Instruction} {last : Instruction}
    {source target : Handle} (unaliased : d.Unaliased)
    (ends : d.program.EndsInCopy d.workspace.table body last source target)
    (sequence : d.workspace.table.kind? source ≠ some .sequence) :
    (d.dropTrailingCopy source target).Unaliased := by
  refine unaliased.withoutLast.rename (.dropTrailingCopy d target sequence)
    (.replace ends.kind sequence) fun i hi w hw temporary _ => ?_
  have elsewhere {k : Handle} (hk : d.workspace.table.IsTemporary (Handle.replace source target k)) :
      Handle.replace source target k = k := by
    rw [Handle.replace, if_neg]
    rintro rfl
    rw [Handle.replace, if_pos rfl] at hk
    exact ends.user hk
  have same := elsewhere temporary
  refine ⟨same ▸ temporary, fun k _ together => ?_⟩
  have there := elsewhere (together ▸ temporary)
  rwa [there, same] at together

end Draft

end MatrixCode
