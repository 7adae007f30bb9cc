import MatrixCode.Proofs.Optimization

/-!
The optimizer, run again and again. The first run lets temporaries share storage, and from then
on a temporary may be written more than once. Folding such a temporary would change all its
places, so a later run must find nothing to fold: either no policy knows anything, or the first
run has already folded what a policy can know. What no policy folds stays so under the renamings
of the other passes.
-/

namespace MatrixCode

/-- The policy counts some operands as known. -/
def Policy.folds (policy : Policy) : Bool := policy.contains constants || policy.contains scalars

/-- What has the name of a literal is an expression without free identifiers. -/
def Table.LiteralsConstant (t : Table) : Prop :=
  ∀ h v, t.get? h = some v → v.isLiteral → v.constant

theorem Reduces.literalsConstant {t t' : Table} {is is' : List Instruction}
    (r : Reduces t is is' t') (constants : t.LiteralsConstant) : t'.LiteralsConstant := by
  induction r with
  | nil t => exact constants
  | keep i rest ih => exact ih constants
  | @fold t t' is is' i o e computes text rest ih =>
      obtain ⟨x, amounts, literal⟩ := text
      apply ih
      intro h v hv isLiteral
      rw [Table.get?_modify] at hv
      split at hv
      · obtain ⟨u, -, rfl⟩ := Option.map_eq_some_iff.mp hv
        exact Variable.constant_foldInto literal
      · exact constants h v hv isLiteral

namespace Instruction

variable {f : Handle → Handle} {t t' : Table} {i : Instruction} {o k : Handle}

/-- No policy folds the instruction away. -/
def Settled (t : Table) (i : Instruction) : Prop :=
  ∀ o, i.Computes t o → (Folding.expression? Machine.fold t i).toOption = some none

theorem toOption_expression?_of_operand (computes : i.Computes t o) (covered : i.Covered t)
    (hk : k ∈ i.inputs)
    (unknown : ∀ a, t.appearance? k = some a → a.isLiteral → ¬a.kind.isScalar) :
    (Folding.expression? Machine.fold t i).toOption = some none := by
  have words : i.words? t = none := by
    unfold words?
    split
    · cases read : i.inputs.mapM t.literalInteger? with
      | none => rfl
      | some arguments =>
          obtain ⟨n, hn⟩ := Option.isSome_iff_exists.mp (Outcome.isSome_of_mapM read k hk)
          obtain ⟨a, ha, literal, scalar, -⟩ := Table.literalInteger?_eq_some hn
          exact absurd scalar (unknown a ha literal)
    · rfl
  have literals : i.onLiterals t = false := by
    apply Bool.eq_false_of_not_eq_true
    intro all
    obtain ⟨x, hx⟩ := Option.isSome_iff_exists.mp (List.all_eq_true.mp all k hk)
    obtain ⟨a, ha, literal, scalar⟩ := Table.literalDouble?_eq_some hx
    exact unknown a ha literal scalar
  rw [toOption_expression? computes covered, words, literals]
  rfl

/-- A renaming between operands that look alike changes nothing about the expression. -/
theorem toOption_expression?_rename (computes : i.Computes t o) (covered : i.Covered t)
    (computes' : (i.rename f).Computes t' (f o)) (covered' : (i.rename f).Covered t')
    (alike : ∀ k ∈ i.inputs, t'.appearance? (f k) = t.appearance? k)
    (kind : t'.kind? (f o) = t.kind? o) :
    (Folding.expression? Machine.fold t' (i.rename f)).toOption =
      (Folding.expression? Machine.fold t i).toOption := by
  have words : (i.rename f).words? t' = i.words? t := by
    have closed : Folding.isClosed (i.rename f) = Folding.isClosed i := rfl
    rw [words?, words?, closed, rename_inputs, List.mapM_map]
    congr 1
    exact Outcome.mapM_congr fun k hk => by
      rw [Function.comp_apply, Table.literalInteger?, Table.literalInteger?, alike k hk]
  have literals : (i.rename f).onLiterals t' = i.onLiterals t := by
    rw [onLiterals, onLiterals, rename_inputs, List.all_map, Bool.eq_iff_iff, List.all_eq_true,
      List.all_eq_true]
    refine forall₂_congr fun k hk => ?_
    rw [Function.comp_apply, Table.literalDouble?, Table.literalDouble?, alike k hk]
  have carries : Carries f t t' .empty .empty i := by
    have sources : i.sources t = i.inputs := Amounts.sources_eq computes.range computes.blocks t
    have whole : ¬i.isPartial := by simp [isPartial, computes.range]
    refine ⟨⟨?_, by simp [computes.range], by simp [steps, computes.range]⟩, ?_, ?_, ?_, ?_⟩
    · intro k hk
      exact .of_bound (alike k (sources ▸ hk)) rfl
    · intro w hw
      obtain rfl := Option.some.inj (computes.output.symm.trans hw)
      exact kind
    · intro w hw matrix
      obtain rfl := Option.some.inj (computes.output.symm.trans hw)
      obtain ⟨kind, hk, scalar⟩ := computes.scalar
      rw [hk] at matrix
      obtain rfl := Option.some.inj (matrix.resolve_right whole)
      cases scalar
    · exact fun w hw part => absurd part whole
    · exact fun w hw part => absurd part whole
  have evaluated := toOption_evaluate_rename .initial carries
  rw [toOption_expression? computes covered, toOption_expression? computes' covered', words, literals,
    rename_primitive, Machine.initial, evaluated, Option.map_map]
  rfl

theorem toOption_expression?_congr (computes : i.Computes t o) (covered : i.Covered t)
    (computes' : i.Computes t' o) (covered' : i.Covered t')
    (alike : ∀ k ∈ i.inputs, t'.appearance? k = t.appearance? k) (kind : t'.kind? o = t.kind? o) :
    (Folding.expression? Machine.fold t' i).toOption =
      (Folding.expression? Machine.fold t i).toOption := by
  have same := i.rename_id
  rw [← same] at computes' covered'
  rw [← toOption_expression?_rename computes covered computes' covered' alike kind, same]

theorem Computes.of_rename {d d' : Draft} (renamed : d.RenamedBy f d')
    (merges : Table.Merges f d.workspace.table) (fixed : ∀ h, d.IsUser h → f h = h)
    (computes : (i.rename f).Computes d'.workspace.table k) :
    ∃ o, i.Computes d.workspace.table o ∧ f o = k := by
  obtain ⟨o, output, rfl⟩ := Option.map_eq_some_iff.mp computes.output
  refine ⟨o, ⟨output, ?_, ?_, computes.primitive, ?_, ?_, ?_⟩, rfl⟩
  · by_contra user
    have temporary := (renamed.isTemporary _).mp computes.temporary
    rw [fixed o user] at temporary
    exact user temporary
  · obtain ⟨kind, hk, scalar⟩ := computes.scalar
    exact ⟨kind, by rw [← merges.kind?, ← renamed.kind?, hk], scalar⟩
  · simpa using computes.range
  · simpa using computes.blocks
  · simpa using computes.operands

end Instruction

namespace Folding

variable {policy : Policy} {t : Table} {i : Instruction}

theorem toOption_step_of_settled (policy : Policy) (covered : i.Covered t) (settled : i.Settled t) :
    (step policy Machine.fold t i).toOption = some none := by
  obtain ⟨o, computes, same⟩ | ⟨-, same⟩ := toOption_step policy Machine.fold covered
  · rw [same, settled o computes, Option.map_some, Option.map_none, ite_self]
  · exact same

theorem toOption_step_of_not_folds (unknown : policy.folds = false) (covered : i.Covered t) :
    (step policy Machine.fold t i).toOption = some none := by
  obtain ⟨o, computes, same⟩ | ⟨-, same⟩ := toOption_step policy Machine.fold covered
  · have knows (v : Variable) : policy.knows v = false := by
      simp only [Policy.folds, Bool.or_eq_false_iff] at unknown
      simp [Policy.knows, unknown]
    obtain ⟨k, hk⟩ := List.exists_mem_of_ne_nil _ computes.operands
    have some : policy.knowsAll t i.inputs = false := by
      rw [Policy.knowsAll, List.all_eq_false]
      refine ⟨k, hk, ?_⟩
      cases t.get? k <;> simp [knows]
    rw [same, some]
    rfl
  · exact same

/-- What a policy that folds has kept has no expression. -/
theorem toOption_expression?_of_kept (folds : policy.folds) {o : Handle} (computes : i.Computes t o)
    (covered : i.Covered t) (constants : t.LiteralsConstant)
    (plain : ∀ k ∈ i.inputs, ∀ a, t.IsTemporary k → t.appearance? k = some a → a.isLiteral = false)
    (kept : (step policy Machine.fold t i).toOption = some none) :
    (expression? Machine.fold t i).toOption = some none := by
  obtain ⟨o', -, same⟩ | ⟨unfit, -⟩ := toOption_step policy Machine.fold covered
  case inr => exact absurd computes (unfit o)
  rw [kept] at same
  split at same
  · obtain ⟨e, he, none⟩ := Option.map_eq_some_iff.mp same.symm
    rw [he, Option.map_eq_none_iff.mp none]
  · next unknown =>
      rw [Policy.knowsAll, List.all_eq_true] at unknown
      push Not at unknown
      obtain ⟨k, hk, unknown⟩ := unknown
      refine Instruction.toOption_expression?_of_operand computes covered hk fun a ha literal scalar => ?_
      obtain ⟨v, hv, rfl⟩ := Option.map_eq_some_iff.mp ha
      apply unknown
      have constant := constants k v hv literal
      have user : v.temporary = false := by
        by_contra temporary
        rw [plain k hk _ ⟨v, hv, by simpa using temporary⟩ ha] at literal
        cases literal
      rw [hv, Option.any_some, Policy.knows, constant, user]
      rw [Policy.folds] at folds
      simp_all [Variable.appearance]

/-- Where no step folds anything, the instructions are left as they are. -/
theorem run_eq_self {w : Workspace} {is : List Instruction}
    (still : ∀ i ∈ is, (step policy Machine.fold w.table i).toOption = some none) :
    run policy Machine.fold w is = ⟨is, w, 0, none⟩ := by
  fun_induction run policy Machine.fold w is with
  | case1 w => rfl
  | case2 w last => rfl
  | case3 w i next rest e failed =>
      have head := still i List.mem_cons_self
      rw [failed] at head
      cases head
  | case4 w i next rest kept f ih =>
      rw [show f = ⟨next :: rest, w, 0, none⟩ from ih (List.forall_mem_cons.mp still).2]
  | case5 w i next rest o e folded f ih =>
      have head := still i List.mem_cons_self
      rw [folded] at head
      cases head

/-- The table in which an instruction was kept, between the one before and the one after. -/
theorem of_mem_run {w : Workspace} {is : List Instruction} (covered : ∀ i ∈ is, i.Covered w.table)
    (typed : ∀ i ∈ is, i.Typed w.table) (succeeded : (run policy Machine.fold w is).failure = none)
    (hi : i ∈ (run policy Machine.fold w is).instructions) :
    ∃ done rest done' rest' t, is = done ++ i :: rest ∧ Reduces w.table done done' t ∧
      Reduces t rest rest' (run policy Machine.fold w is).workspace.table ∧
      (rest = [] ∨ (step policy Machine.fold t i).toOption = some none) := by
  fun_induction run policy Machine.fold w is with
  | case1 w => cases hi
  | case2 w last =>
      obtain rfl := List.mem_singleton.mp hi
      exact ⟨[], [], [], [], w.table, rfl, .nil _, .nil _, .inl rfl⟩
  | case3 w j next rest e failed => cases succeeded
  | case4 w j next rest kept f ih =>
      obtain ⟨head, tail⟩ := List.forall_mem_cons.mp covered
      obtain ⟨typedHead, typedTail⟩ := List.forall_mem_cons.mp typed
      rcases List.mem_cons.mp hi with rfl | hi
      · exact ⟨[], next :: rest, [], _, w.table, rfl, .nil _, reduces_run policy w _ tail typedTail,
          .inr (by rw [kept]; rfl)⟩
      · obtain ⟨done, rest', done', rest'', t, split, before, after, step⟩ := ih tail typedTail succeeded hi
        exact ⟨j :: done, rest', j :: done', rest'', t, congrArg (j :: ·) split, .keep j before, after,
          step⟩
  | case5 w j next rest o e folded f ih =>
      obtain ⟨head, tail⟩ := List.forall_mem_cons.mp covered
      obtain ⟨typedHead, typedTail⟩ := List.forall_mem_cons.mp typed
      obtain ⟨computes, folds⟩ := folds_of_step head typedHead folded
      have kinds (k : Handle) : (w.fold o e).table.kind? k = w.table.kind? k := by
        rw [Table.kind?_eq_content?, Table.kind?_eq_content?, content?_fold]
      obtain ⟨done, rest', done', rest'', t, split, before, after, step⟩ :=
        ih (fun j hj => (tail j hj).congr (content?_fold w o e))
          (fun j hj => (typedTail j hj).congr kinds) succeeded hi
      rw [table_fold] at before
      exact ⟨j :: done, rest', done', rest'', t, congrArg (j :: ·) split,
        .fold computes (folds.amountsTo computes) before, after, step⟩

/-- An instruction on scalars was not folded away in one table, and its operands are the same in
another. -/
structure KeptIn (policy : Policy) (t t' : Table) (i : Instruction) (o : Handle) : Prop where
  computes : i.Computes t o
  entry : ∀ k ∈ i.inputs, t'.get? k = t.get? k
  plain : ∀ k ∈ i.inputs, ∀ a, t.IsTemporary k → t.appearance? k = some a → a.isLiteral = false
  still : (step policy Machine.fold t i).toOption = some none
  covered : i.Covered t
  expression : (expression? Machine.fold t' i).toOption = (expression? Machine.fold t i).toOption

end Folding

namespace Draft

/-- No policy folds anything. -/
def Settled (d : Draft) : Prop := ∀ i ∈ d.program.instructions, i.Settled d.workspace.table

theorem folded_eq_self {d : Draft} {policy : Policy} (still : ∀ i ∈ d.program.instructions,
    (Folding.step policy Machine.fold d.workspace.table i).toOption = some none) :
    d.folded policy = d := by
  rw [folded, foldedBy, Folding.run_eq_self still]

/-- What a renaming of temporaries keeps of each instruction stays as long as they are renamed. -/
theorem Derives.carry {P : Table → Instruction → Prop}
    (rename : ∀ {d d₁ : Draft} {f : Handle → Handle}, d.RenamedBy f d₁ →
      Table.Merges f d.workspace.table → (∀ h, d.IsUser h → f h = h) →
      ∀ i ∈ d.program.instructions, i.Covered d.workspace.table →
      (i.rename f).Covered d₁.workspace.table → P d.workspace.table i → P d₁.workspace.table (i.rename f))
    {d d' : Draft} (derives : Derives d d')
    (covered : ∀ i ∈ d.program.instructions, i.Covered d.workspace.table)
    (holds : ∀ i ∈ d.program.instructions, P d.workspace.table i) :
    ∀ i ∈ d'.program.instructions, P d'.workspace.table i := by
  induction derives with
  | refl d => exact holds
  | withoutLast rest ih =>
      apply ih
      · exact fun i hi => covered i (List.mem_of_mem_dropLast hi)
      · exact fun i hi => holds i (List.mem_of_mem_dropLast hi)
  | @rename d d₁ d' f renamed merges fixed rest ih =>
      have each {Q : Instruction → Prop}
          (h : ∀ i ∈ d.program.instructions, Q (i.rename f)) : ∀ i ∈ d₁.program.instructions, Q i := by
        rw [renamed.instructions]
        exact List.forall_mem_map.mpr h
      have covered' (i : Instruction) (hi : i ∈ d.program.instructions) :=
        renamed.covered merges.keeps hi (covered i hi)
      exact ih (each covered') (each fun i hi =>
        rename renamed merges fixed i hi (covered i hi) (covered' i hi) (holds i hi))

/-- An expression that an instruction does not have it does not get by a renaming. -/
theorem toOption_expression?_of_renamed {f : Handle → Handle} {d d₁ : Draft}
    (renamed : d.RenamedBy f d₁) (merges : Table.Merges f d.workspace.table) {i : Instruction}
    (covered : i.Covered d.workspace.table) (covered' : (i.rename f).Covered d₁.workspace.table)
    {o : Handle} (computes : i.Computes d.workspace.table o)
    (computes' : (i.rename f).Computes d₁.workspace.table (f o)) :
    (Folding.expression? Machine.fold d₁.workspace.table (i.rename f)).toOption =
      (Folding.expression? Machine.fold d.workspace.table i).toOption :=
  Instruction.toOption_expression?_rename computes covered computes' covered'
    (fun k _ => (renamed.appearance? (f k)).trans (merges.alike k))
    ((renamed.kind? (f o)).trans (merges.kind? o))

/-- What is settled stays so when temporaries are renamed. -/
theorem Derives.settled {d d' : Draft} (derives : Derives d d')
    (covered : ∀ i ∈ d.program.instructions, i.Covered d.workspace.table) (settled : d.Settled) :
    d'.Settled := by
  refine derives.carry (P := fun t i => i.Settled t) ?_ covered settled
  intro d d₁ f renamed merges fixed i hi covered covered' settled k computes'
  obtain ⟨o, computes, rfl⟩ := computes'.of_rename renamed merges fixed
  rw [toOption_expression?_of_renamed renamed merges covered covered' computes computes',
    settled o computes]

namespace SingleEquation

variable {d : Draft} {body : List Instruction} {last : Instruction} {target : Handle}
  (single : d.SingleEquation body last target)

include single

/-- A temporary that an instruction reads is not written after it. -/
theorem notMem_outputs {done rest : List Instruction} {i : Instruction}
    (split : d.program.instructions = done ++ i :: rest) {k : Handle} (hk : k ∈ i.inputs)
    (temporary : d.workspace.table.IsTemporary k) : k ∉ Instruction.outputs rest := by
  have before := single.reads done i rest split k (Instruction.mem_sources_of_mem_inputs hk) temporary
  have once := single.count_outputs_le temporary
  intro after
  have := List.count_pos_iff.mpr before
  have := List.count_pos_iff.mpr after
  rw [split, Instruction.outputs_append, Instruction.outputs_cons, List.count_append,
    List.count_append] at once
  omega

/-- What was kept when constants were folded, in the table of that moment. -/
theorem kept_folded (covered : ∀ i ∈ d.program.instructions, i.Covered d.workspace.table)
    {policy : Policy}
    (succeeded :
      (Folding.run policy Machine.fold d.workspace d.program.instructions).failure = none)
    {i : Instruction} (hi : i ∈ (d.folded policy).program.instructions) {o : Handle}
    (computes' : i.Computes (d.folded policy).workspace.table o) :
    ∃ done done' t, Reduces d.workspace.table done done' t ∧
      Folding.KeptIn policy t (d.folded policy).workspace.table i o := by
  obtain ⟨done, rest, done', rest', t, split, before, after, kept⟩ :=
    Folding.of_mem_run covered single.built.formed.typed succeeded hi
  change Reduces t rest rest' (d.folded policy).workspace.table at after
  have covered₁ : i.Covered t := (covered i (by simp [split])).congr before.content?
  have kind (k : Handle) : (d.folded policy).workspace.table.kind? k = t.kind? k := by
    rw [Table.kind?_eq_content?, Table.kind?_eq_content?, after.content?]
  have computes : i.Computes t o :=
    ⟨computes'.output, after.isTemporary computes'.temporary,
      by simpa only [kind] using computes'.scalar, computes'.primitive, computes'.range,
      computes'.blocks, computes'.operands⟩
  have entry (k : Handle) (hk : k ∈ i.inputs) :
      (d.folded policy).workspace.table.get? k = t.get? k := by
    refine after.get? ?_
    by_cases temporary : t.IsTemporary k
    · exact .inr (single.notMem_outputs split hk (before.isTemporary temporary))
    · exact .inl temporary
  refine ⟨done, done', t, before, computes, entry, fun k hk a temporary ha => ?_,
    kept.resolve_left ?_, covered₁, ?_⟩
  · have temporary₀ := before.isTemporary temporary
    have written := single.reads done i rest split k (Instruction.mem_sources_of_mem_inputs hk)
      temporary₀
    rw [Table.appearance?_congr (before.get?_of_isTemporary temporary)] at ha
    exact (single.sound covered).plain k (by simp [split, written]) a temporary₀ ha
  · rintro rfl
    obtain ⟨-, same⟩ := List.append_inj' (split.symm.trans single.split) rfl
    obtain rfl : i = last := by simpa using same
    obtain rfl := Option.some.inj (computes.output.symm.trans single.output)
    exact absurd (before.isTemporary computes.temporary) single.user
  · exact Instruction.toOption_expression?_congr computes covered₁ computes'
      (covered₁.congr after.content?) (fun k hk => Table.appearance?_congr (entry k hk)) (kind o)

/-- A policy that folds leaves nothing for another one. -/
theorem settled_folded (covered : ∀ i ∈ d.program.instructions, i.Covered d.workspace.table)
    (constants : d.workspace.table.LiteralsConstant) {policy : Policy} (folds : policy.folds)
    (succeeded :
      (Folding.run policy Machine.fold d.workspace d.program.instructions).failure = none) :
    (d.folded policy).Settled := by
  intro i hi o computes'
  obtain ⟨_, _, t, before, kept⟩ := single.kept_folded covered succeeded hi computes'
  rw [kept.expression]
  exact Folding.toOption_expression?_of_kept folds kept.computes kept.covered
    (before.literalsConstant constants) kept.plain kept.still

end SingleEquation

/-- Drafts that agree both run to the end, or both fail. -/
theorem Agrees.runs {p : Handle → Prop} {d d' : Draft} (agrees : Agrees p d d') {m : Machine}
    (kinded : m.store.WellKinded d.workspace.table) :
    (∃ m₁ m₂, Yields (Machine.run d.workspace.table d.program) m () m₁ ∧
      Yields (Machine.run d'.workspace.table d'.program) m () m₂ ∧
      m₂.generator = m₁.generator ∧ ∀ h, p h → m₂.store.get? h = m₁.store.get? h) ∨
    ∃ m₁ m₂, Fails (Machine.run d.workspace.table d.program) m m₁ ∧
      Fails (Machine.run d'.workspace.table d'.program) m m₂ :=
  runs_of_advance (agrees.done m kinded) (agrees.generator m kinded) (agrees.value m kinded)

end Draft

namespace Drafting

variable {policy : Policy} {d d' : Draft}

/-- Where nothing is folded and no copy can be dropped, the optimizer lets temporaries share
storage, and does nothing else. -/
theorem shared_of_optimize (sound : d.Sound) (closed : d.Closed)
    (still : ∀ i ∈ d.program.instructions,
      (Folding.step policy Machine.fold d.workspace.table i).toOption = some none)
    {report : Report} (ran : Yields (optimize policy Machine.fold) d report d') :
    Draft.Shared d d' := by
  obtain ⟨_, _, _, _, _, _, _, d₁, d₂, d₃, d₄, -, folded, dropped, first, second, third, -⟩ :=
    optimize_iff.mp ⟨report, ran⟩
  obtain rfl : d₁ = d := (eq_folded folded).trans (Draft.folded_eq_self still)
  obtain ⟨body, last, source, target, ends, -⟩ | ⟨rfl, -⟩ := of_dropTrailingCopy dropped
  · exact absurd ends (closed body last source target)
  · exact shared_of_share sound first second third

theorem failure_eq_none {n : Nat} (ran : Yields (foldConstants policy Machine.fold) d n d') :
    (Folding.run policy Machine.fold d.workspace d.program.instructions).failure = none := by
  rw [Yields, run_foldConstants] at ran
  cases failure : (Folding.run policy Machine.fold d.workspace d.program.instructions).failure with
  | none => rfl
  | some e =>
      rw [failure] at ran
      cases ran

/-- More runs of the optimizer on what it has left. -/
theorem shared_of_mapM_optimize {policies : List Policy} {reports : List Report} (sound : d.Sound)
    (closed : d.Closed) (quiet : (∀ p ∈ policies, p.folds = false) ∨ d.Settled)
    (ran : Yields (policies.mapM (optimize · Machine.fold)) d reports d') : Draft.Shared d d' := by
  induction policies generalizing d reports with
  | nil =>
      cases ran
      exact .refl _
  | cons policy policies ih =>
      obtain ⟨report, reports', d₁, first, rest⟩ := ran.of_mapM_cons
      have shared := shared_of_optimize sound closed (fun i hi => ?_) first
      · refine shared.trans (ih (shared.sound sound) (shared.closed closed) ?_ rest)
        exact quiet.imp (fun unknown p hp => unknown p (List.mem_cons_of_mem _ hp))
          (shared.derives.settled sound.covered)
      · rcases quiet with unknown | settled
        · exact Folding.toOption_step_of_not_folds (unknown policy List.mem_cons_self)
            (sound.covered i hi)
        · exact Folding.toOption_step_of_settled policy (sound.covered i hi) (settled i hi)

end Drafting

/-- Runs of the optimizer under one policy after the other keep the meaning of an equation if the
first policy folds, or none does. -/
theorem Draft.SingleEquation.run_mapM_optimize {d d' : Draft} {body : List Instruction}
    {last : Instruction} {target : Handle} (single : d.SingleEquation body last target)
    (steps : ∀ i ∈ d.program.instructions, ∀ k ∈ i.steps d.workspace.table, d.IsUser k)
    (constants : d.workspace.table.LiteralsConstant)
    (assigned : ∀ v, d.workspace.table.get? target = some v → v.constant = false)
    {policies : List Policy} {reports : List Report}
    (order : (∀ p ∈ policies, p.folds = false) ∨ ∀ p ∈ policies.head?, p.folds)
    (ran : Yields (policies.mapM (Drafting.optimize · Machine.fold)) d reports d')
    {m : Machine} (kinded : m.store.WellKinded d.workspace.table) :
    (∃ m₁ m₂, Yields (Machine.run d.workspace.table d.program) m () m₁ ∧
      Yields (Machine.run d'.workspace.table d'.program) m () m₂ ∧
      m₂.generator = m₁.generator ∧ ∀ h, d.IsUser h → m₂.store.get? h = m₁.store.get? h) ∨
    ∃ m₁ m₂, Fails (Machine.run d.workspace.table d.program) m m₁ ∧
      Fails (Machine.run d'.workspace.table d'.program) m m₂ := by
  cases policies with
  | nil =>
      cases ran
      exact (Agrees.refl _ _).runs kinded
  | cons policy policies =>
      obtain ⟨report, reports', d₁, first, rest⟩ := ran.of_mapM_cons
      obtain ⟨_, _, _, _, _, _, _, _, _, _, _, counted, folded, -⟩ :=
        Drafting.optimize_iff.mp ⟨report, first⟩
      have covered := Drafting.covered_of_count counted
      have named (a : Appearance) (ha : d.workspace.table.appearance? target = some a) :
          a.isLiteral = false := by
        obtain ⟨v, hv, rfl⟩ := Option.map_eq_some_iff.mp ha
        apply Bool.eq_false_of_not_eq_true
        intro literal
        have constant := constants target v hv literal
        rw [assigned v hv] at constant
        cases constant
      obtain ⟨_, d₂, optimized, agrees, sound, closed, derives, users⟩ | ⟨⟨d₂, failed⟩, -⟩ :=
        single.optimize covered steps named policy
      case inr => exact absurd failed first.not_fails
      obtain rfl := optimized.unique first
      have reduces := reduces_folded policy covered single.built.formed.typed
      have quiet := order.imp (fun unknown p hp => unknown p (List.mem_cons_of_mem _ hp))
        fun folds => derives.settled
          (fun i hi => (covered i (reduces.sublist.subset hi)).congr reduces.content?)
          (single.settled_folded covered constants (folds policy rfl) (Drafting.failure_eq_none folded))
      have shared := Drafting.shared_of_mapM_optimize sound closed quiet rest
      exact (agrees.trans ((shared.agrees sound).mono users)).runs kinded

theorem Draft.run_mapM_optimize_doubleNegation :
    let d := ofEquation .doubleNegation (.ofIntegers ["n", "x"])
    let m : Machine := ⟨Store.empty.set ⟨2⟩ (.integer 7), .initial⟩
    ∃ reports d' m₂, Yields ([.scalars, .nothing, .constants].mapM (Drafting.optimize · Machine.fold))
        d reports d' ∧
      Yields (Machine.run d'.workspace.table d'.program) m () m₂ ∧
      (m₂.store.get? ⟨3⟩).bind Value.integer? = some 7 := by
  intro d m
  obtain ⟨body, last, single⟩ := singleEquation_doubleNegation
  obtain ⟨reports, optimized⟩ : ∃ reports, Yields ([.scalars, .nothing, .constants].mapM
      (Drafting.optimize · Machine.fold)) d reports _ := exists_yields (by decide +kernel)
  have ran : Yields (Machine.run d.workspace.table d.program) m () _ :=
    yields_of_toOption (by decide +kernel)
  have all : ∀ v ∈ d.workspace.table.entries.toList, v.isLiteral → v.constant := by decide +kernel
  have assigned : ∀ v ∈ d.workspace.table.get? ⟨3⟩, v.constant = false := by decide +kernel
  obtain ⟨m₁, m₂, plain, ran', -, same⟩ | ⟨m₁, -, failed, -⟩ :=
    single.run_mapM_optimize (by decide +kernel)
      (fun h v hv => all v (Array.mem_toList_iff.mpr (Array.mem_of_getElem? hv))) assigned
      (.inr (by decide)) optimized (m := m) ((Store.wellKinded_empty _).set (by decide +kernel))
  · refine ⟨reports, _, m₂, optimized, ran', ?_⟩
    rw [same ⟨3⟩ single.user, plain.unique ran]
    decide +kernel
  · exact absurd failed ran.not_fails

/-- A run that folds nothing lets the sum of constants share a temporary with `-n`. A later run
folds the sum, and with it the place of `-n`. -/
theorem Draft.run_optimize_twice_doubleNegation :
    let d := ofEquation .doubleNegation (.ofIntegers ["n", "x"])
    let m : Machine := ⟨Store.empty.set ⟨2⟩ (.integer 7), .initial⟩
    (∃ body last, d.SingleEquation body last ⟨3⟩) ∧ m.store.WellKinded d.workspace.table ∧
      ∃ reports d' m₁ m₂,
        Yields ([.nothing, .scalars].mapM (Drafting.optimize · Machine.fold)) d reports d' ∧
        Yields (Machine.run d.workspace.table d.program) m () m₁ ∧
        Yields (Machine.run d'.workspace.table d'.program) m () m₂ ∧
        (m₁.store.get? ⟨3⟩).bind Value.integer? = some 7 ∧
        (m₂.store.get? ⟨3⟩).bind Value.integer? = some (-1) := by
  intro d m
  obtain ⟨reports, optimized⟩ : ∃ reports, Yields ([.nothing, .scalars].mapM
      (Drafting.optimize · Machine.fold)) d reports _ := exists_yields (by decide +kernel)
  refine ⟨singleEquation_doubleNegation, (Store.wellKinded_empty _).set (by decide +kernel), reports,
    _, _, _, optimized, yields_of_toOption ?_, yields_of_toOption ?_, ?_, ?_⟩
  all_goals decide +kernel

end MatrixCode
