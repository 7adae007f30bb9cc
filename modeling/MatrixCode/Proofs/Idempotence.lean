import MatrixCode.Proofs.Packing
import MatrixCode.Proofs.Repetition

/-!
A second run of the optimizer under the same policy. The first run leaves a draft in which no
pass finds anything to do: what the policy knows is folded, no copy is left that could be
dropped, and storage is shared as far as it can be. Each pass brings this about for itself,
and the passes after it keep it.
-/

namespace MatrixCode

namespace Policy

theorem knows_mapRange (policy : Policy) (f : Handle → Handle) (v : Variable) :
    policy.knows (v.mapRange f) = policy.knows v := by
  obtain ⟨name, content, temporary, constant, precedence⟩ := v
  cases content <;> rfl

end Policy

namespace Instruction

/-- The policy does not fold the instruction away, and no renaming of temporaries changes that:
there is no expression, or some operand is a variable of the user that the policy does not
know. -/
def SettledFor (policy : Policy) (t : Table) (i : Instruction) : Prop :=
  ∀ o, i.Computes t o → (Folding.expression? Machine.fold t i).toOption = some none ∨
    ∃ k ∈ i.inputs, ¬t.IsTemporary k ∧ ∀ v, t.get? k = some v → policy.knows v = false

end Instruction

namespace Folding

variable {policy : Policy} {t t' : Table} {i : Instruction}

theorem toOption_step_of_settledFor (covered : i.Covered t) (settled : i.SettledFor policy t) :
    (step policy Machine.fold t i).toOption = some none := by
  obtain ⟨o, computes, same⟩ | ⟨-, same⟩ := toOption_step policy Machine.fold covered
  · rw [same]
    rcases settled o computes with none | ⟨k, hk, -, unknown⟩
    · rw [none, Option.map_some, Option.map_none, ite_self]
    · have some : policy.knowsAll t i.inputs = false := by
        rw [Policy.knowsAll, List.all_eq_false]
        refine ⟨k, hk, ?_⟩
        cases hv : t.get? k with
        | none => simp
        | some v => simp [unknown v hv]
      rw [some]
      rfl
  · exact same

/-- What was kept has no expression or an operand that is not known. A temporary that is not known
is no literal, so there is no expression with it either. -/
theorem KeptIn.settledFor {o : Handle} (kept : KeptIn policy t t' i o) :
    (expression? Machine.fold t' i).toOption = some none ∨
      ∃ k ∈ i.inputs, ¬t'.IsTemporary k ∧ ∀ v, t'.get? k = some v → policy.knows v = false := by
  obtain ⟨o', -, same⟩ | ⟨unfit, -⟩ := toOption_step policy Machine.fold kept.covered
  case inr => exact absurd kept.computes (unfit o)
  rw [kept.still] at same
  rw [kept.expression]
  split at same
  · obtain ⟨e, he, none⟩ := Option.map_eq_some_iff.mp same.symm
    exact .inl (by rw [he, Option.map_eq_none_iff.mp none])
  · next unknown =>
      rw [Policy.knowsAll, List.all_eq_true] at unknown
      push Not at unknown
      obtain ⟨k, hk, unknown⟩ := unknown
      by_cases temporary : t.IsTemporary k
      · left
        refine Instruction.toOption_expression?_of_operand kept.computes kept.covered hk
          fun a ha literal => ?_
        rw [kept.plain k hk a temporary ha] at literal
        cases literal
      · right
        rw [Table.IsTemporary, ← kept.entry k hk] at temporary
        refine ⟨k, hk, temporary, fun v hv => ?_⟩
        rw [kept.entry k hk] at hv
        simpa [hv] using unknown

end Folding

namespace Draft

/-- No pass of the optimizer under the policy finds anything to do. -/
structure Finished (policy : Policy) (d : Draft) : Prop where
  covered : ∀ i ∈ d.program.instructions, i.Covered d.workspace.table
  settled : ∀ i ∈ d.program.instructions, i.SettledFor policy d.workspace.table
  closed : d.Closed
  packed : ∀ kind, kind ≠ .sequence → d.Packed kind

theorem Derives.settledFor {policy : Policy} {d d' : Draft} (derives : Derives d d')
    (covered : ∀ i ∈ d.program.instructions, i.Covered d.workspace.table)
    (settled : ∀ i ∈ d.program.instructions, i.SettledFor policy d.workspace.table) :
    ∀ i ∈ d'.program.instructions, i.SettledFor policy d'.workspace.table := by
  refine derives.carry (P := fun t i => i.SettledFor policy t) ?_ covered settled
  intro d d₁ f renamed merges fixed i hi covered covered' settled k computes'
  obtain ⟨o, computes, rfl⟩ := computes'.of_rename renamed merges fixed
  refine (settled o computes).imp (fun none => ?_) fun ⟨k, hk, user, unknown⟩ => ?_
  · rw [toOption_expression?_of_renamed renamed merges covered covered' computes computes', none]
  · refine ⟨k, ?_, fun temporary => user ((renamed.isTemporary k).mp temporary), fun v hv => ?_⟩
    · rw [Instruction.rename_inputs, ← fixed k user]
      exact List.mem_map_of_mem hk
    · rw [renamed.entry] at hv
      obtain ⟨u, hu, rfl⟩ := Option.map_eq_some_iff.mp hv
      split
      · rw [Policy.knows_mapRange, unknown u hu]
      · exact unknown u hu

end Draft

namespace Drafting

variable {policy : Policy} {d d' : Draft}

/-- Where storage is shared as far as it can be, sharing does nothing. -/
theorem yields_shareTemporaries_of_packed {kind : Kind}
    (covered : ∀ i ∈ d.program.instructions, i.Covered d.workspace.table)
    (packed : d.Packed kind) : Yields (shareTemporaries kind) d 0 d := by
  obtain ⟨u, hu⟩ := Option.isSome_iff_exists.mp (Usage.isSome_ofProgram covered)
  have ran := yields_shareTemporaries hu kind
  rwa [packed.plan_eq_nil (Usage.describes_of_ofProgram hu)] at ran

/-- The optimizer leaves what is finished as it is. -/
theorem optimize_of_finished (finished : d.Finished policy) :
    ∃ report, Yields (optimize policy Machine.fold) d report d ∧ report.removedConstants = 0 ∧
      report.removedTemporaries = .zero ∧ report.trailingCopyRemoved = false := by
  have covered := finished.covered
  obtain ⟨count, counted⟩ := exists_query (Program.isSome_countTemporaries covered)
  have folded : Yields (foldConstants policy Machine.fold) d 0 d := by
    have still := Folding.run_eq_self fun i hi =>
      Folding.toOption_step_of_settledFor (covered i hi) (finished.settled i hi)
    rw [Yields, run_foldConstants, Draft.foldedBy, still]
  have kept : Yields dropTrailingCopy d false d := by
    obtain ⟨body, last, source, target, ends, -⟩ | ⟨-, ran⟩ :=
      yields_dropTrailingCopy (Program.searchable_of_covered covered)
    · exact absurd ends (finished.closed body last source target)
    · exact ran
  have shared {kind : Kind} (hk : kind ≠ .sequence) : Yields (shareTemporaries kind) d 0 d :=
    yields_shareTemporaries_of_packed covered (finished.packed kind hk)
  exact ⟨_, optimize_of_passes counted folded kept (shared (by simp)) (shared (by simp))
    (shared (by simp)) counted, rfl, rfl, rfl⟩

/-- Storage that was shared for each kind in turn is shared as far as it can be. -/
theorem packed_of_share {d₂ d₃ d₄ : Draft}
    (covered : ∀ i ∈ d₂.program.instructions, i.Covered d₂.workspace.table) {n₁ n₂ n₃ : Nat}
    (first : Yields (shareTemporaries .integer) d₂ n₁ d₃)
    (second : Yields (shareTemporaries .double) d₃ n₂ d₄)
    (third : Yields (shareTemporaries .matrix) d₄ n₃ d') {kind : Kind} (hk : kind ≠ .sequence) :
    d'.Packed kind := by
  obtain ⟨⟨_, _, on₁⟩, ⟨_, _, on₂⟩, _, _, on₃⟩ := handsOn_of_share covered first second third
  cases kind with
  | integer => exact on₃.packed_of_ne (by simp) (on₂.packed_of_ne (by simp) on₁.packed)
  | double => exact on₃.packed_of_ne (by simp) on₂.packed
  | matrix => exact on₃.packed
  | sequence => exact absurd rfl hk

end Drafting

namespace Draft.SingleEquation

variable {d d' : Draft} {body : List Instruction} {last : Instruction} {target : Handle}
  {policy : Policy} {report : Report}

/-- The optimizer leaves nothing to do of an equation. -/
theorem finished_of_optimize (single : d.SingleEquation body last target)
    (named : ∀ v, d.workspace.table.get? target = some v → v.isLiteral = false)
    (ran : Yields (Drafting.optimize policy Machine.fold) d report d') : d'.Finished policy := by
  obtain ⟨_, _, _, _, _, _, _, d₁, d₂, d₃, d₄, counted, folded, dropped, first, second, third, -⟩ :=
    Drafting.optimize_iff.mp ⟨report, ran⟩
  have covered := Drafting.covered_of_count counted
  have succeeded := Drafting.failure_eq_none folded
  obtain rfl := Drafting.eq_folded folded
  have reduces := reduces_folded policy covered single.built.formed.typed
  obtain ⟨body', -, assigning⟩ := (single.assigning covered).of_shortens reduces
  have named' (a : Appearance)
      (ha : (d.folded policy).workspace.table.appearance? target = some a) : a.isLiteral = false := by
    rw [Table.appearance?_congr (reduces.get? (.inl single.user))] at ha
    obtain ⟨v, hv, rfl⟩ := Option.map_eq_some_iff.mp ha
    exact named v hv
  obtain ⟨_, _, dropped', -, sound, closed, derives, -⟩ := assigning.drop named'
  obtain rfl := dropped.unique dropped'
  have shared := Drafting.shared_of_share sound first second third
  have covered₁ (i : Instruction) (hi : i ∈ (d.folded policy).program.instructions) :=
    (covered i (reduces.sublist.subset hi)).congr reduces.content?
  refine ⟨(shared.sound sound).covered, (derives.trans shared.derives).settledFor covered₁ ?_,
    shared.closed closed, fun kind => Drafting.packed_of_share sound.covered first second third⟩
  intro i hi o computes
  obtain ⟨_, _, t, -, kept⟩ := single.kept_folded covered succeeded hi computes
  exact kept.settledFor

/-- The optimizer is idempotent on an equation: a second run under the same policy succeeds,
changes nothing and reports nothing. -/
theorem optimize_again (single : d.SingleEquation body last target)
    (named : ∀ v, d.workspace.table.get? target = some v → v.isLiteral = false)
    (ran : Yields (Drafting.optimize policy Machine.fold) d report d') :
    ∃ again, Yields (Drafting.optimize policy Machine.fold) d' again d' ∧
      again.removedConstants = 0 ∧ again.removedTemporaries = .zero ∧
      again.trailingCopyRemoved = false :=
  Drafting.optimize_of_finished (single.finished_of_optimize named ran)

end Draft.SingleEquation

/-- The first run folds the sum, drops the copy and leaves the temporary of `-n`. -/
theorem Draft.optimize_again_doubleNegation :
    let d := ofEquation .doubleNegation (.ofIntegers ["n", "x"])
    ∃ report d' again, Yields (Drafting.optimize .scalars Machine.fold) d report d' ∧
      report.removedConstants = 1 ∧ report.trailingCopyRemoved = true ∧
      report.temporariesAfter.total = 1 ∧
      Yields (Drafting.optimize .scalars Machine.fold) d' again d' ∧
      again.removedConstants = 0 ∧ again.removedTemporaries = .zero ∧
      again.trailingCopyRemoved = false := by
  intro d
  obtain ⟨body, last, single⟩ := singleEquation_doubleNegation
  have named : ∀ v ∈ d.workspace.table.get? ⟨3⟩, v.isLiteral = false := by decide +kernel
  obtain ⟨report, ran⟩ : ∃ report, Yields (Drafting.optimize .scalars Machine.fold) d report _ :=
    exists_yields (by decide +kernel)
  have reported : ((Drafting.optimize .scalars Machine.fold).run.run d).1.toOption = some report := by
    rw [ran]
    rfl
  have counts : ((Drafting.optimize .scalars Machine.fold).run.run d).1.toOption.map (fun r =>
      (r.removedConstants, r.trailingCopyRemoved, r.temporariesAfter.total)) = some (1, true, 1) := by
    decide +kernel
  rw [reported, Option.map_some, Option.some.injEq, Prod.mk.injEq, Prod.mk.injEq] at counts
  obtain ⟨again, unchanged⟩ := single.optimize_again named ran
  exact ⟨report, _, again, ran, counts.1, counts.2.1, counts.2.2, unchanged⟩

end MatrixCode
