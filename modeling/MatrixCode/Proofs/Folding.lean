import MatrixCode.Proofs.Reduction

/-!
Constant folding. What is folded away is an instruction on literals with the value that
its output becomes, so folding is a reduction; when it fails, a run of the program fails
too. The policy decides on the operands that count as known, and on nothing else.
-/

namespace MatrixCode

namespace Variable

theorem isLiteral_of_integer {v : Variable} {n : Int64} (h : v.literalInteger? = some n) :
    v.isLiteral ∧ v.kind.isScalar := by
  unfold literalInteger? at h
  split at h
  · next integer =>
      obtain ⟨body, hb, -⟩ := Option.bind_eq_some_iff.mp h
      simp [isLiteral, hb, integer, Kind.isScalar]
  · cases h

theorem isLiteral_of_double {v : Variable} {x : Float} (h : v.literalDouble? = some x) :
    v.isLiteral ∧ v.kind.isScalar := by
  unfold literalDouble? at h
  split at h
  · next scalar =>
      obtain ⟨body, hb, -⟩ := Option.bind_eq_some_iff.mp h
      simp [isLiteral, hb, scalar]
  · cases h

end Variable

namespace Table

/-- The value of an integer literal of the table. -/
def literalInteger? (t : Table) (h : Handle) : Option Int64 :=
  (t.appearance? h).bind Appearance.integer?

/-- The value of a scalar literal of the table. -/
def literalDouble? (t : Table) (h : Handle) : Option Float :=
  (t.appearance? h).bind Appearance.double?

theorem literalInteger?_eq_some {t : Table} {h : Handle} {n : Int64}
    (hn : t.literalInteger? h = some n) :
    ∃ a, t.appearance? h = some a ∧ a.isLiteral ∧ a.kind.isScalar ∧ a.integer? = some n := by
  obtain ⟨a, ha, hn⟩ := Option.bind_eq_some_iff.mp hn
  obtain ⟨v, -, rfl⟩ := Option.map_eq_some_iff.mp ha
  obtain ⟨literal, scalar⟩ := Variable.isLiteral_of_integer hn
  exact ⟨v.appearance, ha, literal, scalar, hn⟩

theorem literalDouble?_eq_some {t : Table} {h : Handle} {x : Float}
    (hx : t.literalDouble? h = some x) :
    ∃ a, t.appearance? h = some a ∧ a.isLiteral ∧ a.kind.isScalar := by
  obtain ⟨a, ha, hx⟩ := Option.bind_eq_some_iff.mp hx
  obtain ⟨v, -, rfl⟩ := Option.map_eq_some_iff.mp ha
  exact ⟨v.appearance, ha, Variable.isLiteral_of_double hx⟩

end Table

/-- All operands are in the table and known. -/
def Policy.knowsAll (policy : Policy) (t : Table) (hs : List Handle) : Bool :=
  hs.all fun h => (t.get? h).any policy.knows

/-- What is known is a scalar and no temporary, since temporaries are not constant. -/
theorem Policy.user_of_knows {policy : Policy} {v : Variable}
    (fresh : v.temporary = true → v.constant = false) (known : policy.knows v) :
    v.temporary = false ∧ v.kind.isScalar := by
  simp only [Policy.knows, Bool.and_eq_true, Bool.or_eq_true, Bool.not_eq_true'] at known
  obtain ⟨scalar, ⟨-, constant⟩ | ⟨-, user⟩⟩ := known
  · refine ⟨Bool.eq_false_iff.mpr fun temporary => ?_, scalar⟩
    exact Bool.false_ne_true ((fresh temporary).symm.trans constant)
  · exact ⟨user, scalar⟩

section Operands

variable {t : Table} {hs : List Handle}

theorem toOption_literals? (covered : ∀ k ∈ hs, (t.get? k).isSome) :
    (Folding.literals? t hs).toOption = some (hs.mapM t.literalInteger?) := by
  simp only [Folding.literals?, Outcome.toOption_bind, Outcome.toOption_mapM, Table.toOption_fetch,
    Outcome.toOption_pure]
  induction hs with
  | nil => rfl
  | cons k hs ih =>
      obtain ⟨head, tail⟩ := List.forall_mem_cons.mp covered
      obtain ⟨v, hv⟩ := Option.isSome_iff_exists.mp head
      obtain ⟨vs, hvs, rest⟩ := Option.bind_eq_some_iff.mp (ih tail)
      rw [Option.some.injEq] at rest
      simp only [List.mapM_cons, hv, hvs, Option.bind_eq_bind, Option.bind_some, Option.pure_def,
        Option.some.injEq, rest]
      simp [Table.literalInteger?, Table.appearance?, hv, Variable.appearance]

theorem toOption_areLiterals (covered : ∀ k ∈ hs, (t.get? k).isSome) :
    (Machine.areLiterals t hs).toOption = some (hs.all fun k => (t.literalDouble? k).isSome) := by
  induction hs with
  | nil => rfl
  | cons k hs ih =>
      obtain ⟨head, tail⟩ := List.forall_mem_cons.mp covered
      obtain ⟨v, hv⟩ := Option.isSome_iff_exists.mp head
      have value : t.literalDouble? k = v.literalDouble? := by
        simp [Table.literalDouble?, Table.appearance?, hv, Variable.appearance]
      simp only [Machine.areLiterals, Machine.isLiteralOperand, Outcome.toOption_bind,
        Table.toOption_fetch, hv, Option.bind_some, Outcome.toOption_pure, Outcome.toOption_ite,
        ih tail, List.all_cons, value]
      cases v.literalDouble? <;> rfl

theorem toOption_areKnown (policy : Policy) (covered : ∀ k ∈ hs, (t.get? k).isSome) :
    (Folding.areKnown policy t hs).toOption = some (policy.knowsAll t hs) := by
  induction hs with
  | nil => rfl
  | cons k hs ih =>
      obtain ⟨head, tail⟩ := List.forall_mem_cons.mp covered
      obtain ⟨v, hv⟩ := Option.isSome_iff_exists.mp head
      simp only [Folding.areKnown, Outcome.toOption_bind, Table.toOption_fetch, hv, Option.bind_some,
        Outcome.toOption_pure, Outcome.toOption_ite, ih tail, Policy.knowsAll, List.all_cons,
        Option.any_some]
      cases policy.knows v <;> rfl

end Operands

namespace Instruction

variable {t : Table} {i : Instruction} {o : Handle}

/-- The operands are literals that have a value. -/
def onLiterals (t : Table) (i : Instruction) : Bool :=
  i.inputs.all fun k => (t.literalDouble? k).isSome

/-- The words that an integer operation has for operands when all are literals. -/
def words? (t : Table) (i : Instruction) : Option (List Int64) :=
  if Folding.isClosed i then i.inputs.mapM t.literalInteger? else none

theorem toOption_fold (computes : i.Computes t o) (covered : i.Covered t) :
    (Machine.fold t i).toOption =
      if i.onLiterals t then (i.evaluate t .initial).toOption.map fun e => Machine.literal? e.value
      else some none := by
  obtain ⟨kind, hk, scalar⟩ := computes.scalar
  have task : (i.isScalarTask t).toOption = some true := by
    simp [isScalarTask, computes.output, hk, scalar, computes.primitive, computes.range]
  simp only [Machine.fold, Outcome.toOption_bind, task, Option.bind_some, if_true,
    toOption_areLiterals fun _ => covered.input, ← onLiterals.eq_1]
  cases i.onLiterals t with
  | false => rfl
  | true =>
      simp only [if_true, Outcome.toOption_bind]
      cases (i.evaluate t .initial).toOption <;> rfl

/-- What folding makes of an instruction: an integer operation on words is carried out, and the folder
is asked about everything else. -/
theorem toOption_expression?_by (folder : Folder) (covered : ∀ k ∈ i.inputs, (t.get? k).isSome) :
    (Folding.expression? folder t i).toOption =
      match i.words? t with
      | some arguments => some ((i.primitive.onWords arguments).map .integer)
      | none => (folder t i).toOption := by
  simp only [Folding.expression?, words?, Outcome.toOption_ite, Outcome.toOption_bind,
    toOption_literals? covered, Option.bind_some]
  split
  · cases i.inputs.mapM t.literalInteger? <;> rfl
  · rfl

/-- What folding by running makes of an instruction. -/
theorem toOption_expression? (computes : i.Computes t o) (covered : i.Covered t) :
    (Folding.expression? Machine.fold t i).toOption =
      match i.words? t with
      | some arguments => some ((i.primitive.onWords arguments).map .integer)
      | none =>
        if i.onLiterals t then (i.evaluate t .initial).toOption.map fun e => Machine.literal? e.value
        else some none := by
  rw [toOption_expression?_by Machine.fold fun _ => covered.input, toOption_fold computes covered]

theorem toOption_integerResult_of_isClosed (closed : Folding.isClosed i) {s : Store}
    {arguments : List Int64} (read : (i.inputs.mapM (s.integer t)).toOption = some arguments)
    (g : Generator) :
    (i.integerResult t s g).toOption = (i.primitive.onWords arguments).map fun n => (n, g) := by
  unfold integerResult
  unfold Folding.isClosed at closed
  split at closed
  case h_6 => cases closed
  all_goals
    next hp hs =>
      simp only [hp, hs, Outcome.toOption_bind, read, Option.bind_some]
      split <;> simp_all

theorem toOption_mapM_integer {hs : List Handle} {arguments : List Int64}
    (words : hs.mapM t.literalInteger? = some arguments) (s : Store) :
    (hs.mapM (s.integer t)).toOption = some arguments := by
  rw [Outcome.toOption_mapM, ← words]
  refine Outcome.mapM_congr fun k hk => ?_
  obtain ⟨n, hn⟩ := Option.isSome_iff_exists.mp (Outcome.isSome_of_mapM words k hk)
  obtain ⟨a, ha, literal, -, hn'⟩ := Table.literalInteger?_eq_some hn
  rw [Store.toOption_integer, ha, hn, Option.bind_some, if_pos literal, hn']

/-- An integer operation on words that are literals. -/
theorem toOption_evaluate_of_words (computes : i.Computes t o) (typed : i.Typed t)
    {arguments : List Int64} (words : i.words? t = some arguments) (m : Machine) :
    (i.evaluate t m).toOption =
      (i.primitive.onWords arguments).map fun n => ⟨o, .integer n, m.generator⟩ := by
  unfold words? at words
  split at words
  · next closed =>
      have integer := typed.integer o computes.output closed
      have whole : i.isPartial = false := by simp [isPartial, computes.range]
      have assembled : i.primitive ≠ .assemble := by
        intro h
        simp [Folding.isClosed, h] at closed
      have read := toOption_mapM_integer words m.store
      rw [toOption_evaluate, computes.output, Option.bind_some]
      simp only [result, whole, Bool.false_eq_true, if_false, assembled, integer, Option.bind_some,
        toOption_integerResult_of_isClosed closed read, Option.map_map, Function.comp_def]
  · cases words

/-- An instruction on literals that folding makes an expression of has the value of the
expression. -/
theorem amounts_of_expression? (computes : i.Computes t o) (covered : i.Covered t)
    (typed : i.Typed t) {e : ScalarText}
    (he : (Folding.expression? Machine.fold t i).toOption = some (some e)) :
    ∃ x, i.Amounts t o x ∧ Machine.literal? x = some e := by
  rw [toOption_expression? computes covered] at he
  cases hw : i.words? t with
  | some arguments =>
      rw [hw, Option.some.injEq] at he
      obtain ⟨n, hn, rfl⟩ := Option.map_eq_some_iff.mp he
      refine ⟨.integer n, ⟨computes, fun k hk => ?_, ?_⟩, rfl⟩
      · unfold words? at hw
        split at hw
        · obtain ⟨m, hm⟩ := Option.isSome_iff_exists.mp (Outcome.isSome_of_mapM hw k hk)
          obtain ⟨a, ha, literal, scalar, -⟩ := Table.literalInteger?_eq_some hm
          exact ⟨a, ha, literal, scalar⟩
        · cases hw
      · rw [toOption_evaluate_of_words computes typed hw, hn]
        rfl
  | none =>
      rw [hw] at he
      dsimp only at he
      split at he
      · next literals =>
          obtain ⟨effect, evaluated, literal⟩ := Option.map_eq_some_iff.mp he
          refine ⟨effect.value, ⟨computes, fun k hk => ?_, by rw [evaluated]; rfl⟩, literal⟩
          have operand := List.all_eq_true.mp literals k hk
          obtain ⟨x, hx⟩ := Option.isSome_iff_exists.mp operand
          exact Table.literalDouble?_eq_some hx
      · cases he

/-- Folding fails only on an instruction on literals that cannot be carried out. -/
theorem fails_of_expression? (computes : i.Computes t o) (covered : i.Covered t)
    (he : (Folding.expression? Machine.fold t i).toOption = none) :
    (∀ k ∈ i.inputs, ∃ a, t.appearance? k = some a ∧ a.isLiteral ∧ a.kind.isScalar) ∧
      (i.evaluate t .initial).toOption = none := by
  rw [toOption_expression? computes covered] at he
  split at he
  · cases he
  · split at he
    · next literals =>
        refine ⟨fun k hk => ?_, Option.map_eq_none_iff.mp he⟩
        obtain ⟨x, hx⟩ := Option.isSome_iff_exists.mp (List.all_eq_true.mp literals k hk)
        exact Table.literalDouble?_eq_some hx
    · cases he

end Instruction

namespace Folding

variable {t : Table} {i : Instruction} {o : Handle} {policy : Policy}

/-- The candidates are the instructions that compute a scalar temporary from what is known. -/
theorem toOption_candidate? (policy : Policy) (covered : i.Covered t) :
    (∃ o, i.Computes t o ∧ (candidate? policy t i).toOption =
      some (if policy.knowsAll t i.inputs then some o else none)) ∨
    (∀ o, ¬i.Computes t o) ∧ (candidate? policy t i).toOption = some none := by
  cases ho : i.output with
  | none =>
      exact .inr ⟨fun o computes => by simp [computes.output] at ho, by simp [candidate?, ho]⟩
  | some o =>
      obtain ⟨v, hv⟩ := Option.isSome_iff_exists.mp
        (covered.mentioned o (Instruction.mem_mentions_of_output ho))
      simp only [candidate?, ho, Outcome.toOption_bind, Table.toOption_fetch, hv, Option.bind_some]
      split
      · next task =>
          simp only [Bool.and_eq_true, Bool.not_eq_true', Option.isNone_iff_eq_none,
            List.isEmpty_eq_false_iff] at task
          obtain ⟨⟨⟨⟨⟨temporary, scalar⟩, primitive⟩, range⟩, blocks⟩, operands⟩ := task
          refine .inl ⟨o, ⟨ho, ⟨v, hv, temporary⟩, ⟨v.kind, by simp [Table.kind?, hv], scalar⟩,
            primitive, range, blocks, operands⟩, ?_⟩
          simp only [Outcome.toOption_bind, toOption_areKnown policy fun _ => covered.input, Option.bind_some]
          split <;> rfl
      · next task =>
          refine .inr ⟨fun o' computes => task ?_, rfl⟩
          obtain rfl : o = o' := by simpa [ho] using computes.output
          obtain ⟨v', hv', temporary⟩ := computes.temporary
          obtain ⟨kind, hk, scalar⟩ := computes.scalar
          simp_all [Table.kind?, computes.primitive, computes.range, computes.blocks,
            computes.operands]

/-- A step folds what is known and has an expression. -/
theorem toOption_step (policy : Policy) (folder : Folder) (covered : i.Covered t) :
    (∃ o, i.Computes t o ∧ (step policy folder t i).toOption =
      if policy.knowsAll t i.inputs then
        (expression? folder t i).toOption.map (·.map (o, ·))
      else some none) ∨
    (∀ o, ¬i.Computes t o) ∧ (step policy folder t i).toOption = some none := by
  simp only [step, Outcome.toOption_bind]
  obtain ⟨o, computes, candidate⟩ | ⟨none, candidate⟩ := toOption_candidate? policy covered
  · refine .inl ⟨o, computes, ?_⟩
    rw [candidate, Option.bind_some]
    cases policy.knowsAll t i.inputs with
    | false => rfl
    | true =>
        simp only [if_true, Outcome.toOption_bind]
        cases (expression? folder t i).toOption <;> rfl
  · exact .inr ⟨none, by rw [candidate]; rfl⟩

/-- The text of an instruction on what is known. -/
structure Folds (policy : Policy) (folder : Folder) (t : Table) (i : Instruction) (o : Handle)
    (e : ScalarText) : Prop where
  covered : i.Covered t
  typed : i.Typed t
  known : policy.knowsAll t i.inputs
  expression : (expression? folder t i).toOption = some (some e)

theorem Folds.knows {folder : Folder} {e : ScalarText} (f : Folds policy folder t i o e) {k : Handle}
    (hk : k ∈ i.inputs) {v : Variable} (hv : t.get? k = some v) : policy.knows v := by
  have all := List.all_eq_true.mp f.known k hk
  simpa [hv] using all

theorem Folds.user {folder : Folder} {e : ScalarText} (f : Folds policy folder t i o e) {k : Handle}
    (hk : k ∈ i.inputs)
    (plain : ∀ v, t.get? k = some v → v.temporary = true → v.constant = false) :
    ∃ v, t.get? k = some v ∧ v.temporary = false ∧ v.kind.isScalar := by
  obtain ⟨v, hv⟩ := Option.isSome_iff_exists.mp (f.covered.input hk)
  exact ⟨v, hv, Policy.user_of_knows (plain v hv) (f.knows hk hv)⟩

theorem folds_of_step {folder : Folder} (covered : i.Covered t) (typed : i.Typed t) {e : ScalarText}
    (h : step policy folder t i = .ok (some (o, e))) :
    i.Computes t o ∧ Folds policy folder t i o e := by
  obtain ⟨o', computes, hs⟩ | ⟨-, hs⟩ := toOption_step policy folder covered
  · rw [h] at hs
    split at hs
    · next known =>
        obtain ⟨e', he', pair⟩ := Option.map_eq_some_iff.mp hs.symm
        obtain ⟨e'', rfl, same⟩ := Option.map_eq_some_iff.mp pair
        obtain ⟨rfl, rfl⟩ := Prod.mk.inj same
        exact ⟨computes, covered, typed, known, he'⟩
    · cases hs
  · rw [h] at hs
    cases hs

theorem Folds.amountsTo {e : ScalarText} (computes : i.Computes t o)
    (f : Folds policy Machine.fold t i o e) : i.AmountsTo t o e :=
  Instruction.amounts_of_expression? computes f.covered f.typed f.expression

theorem fails_of_step (covered : i.Covered t) {e : Failure}
    (h : step policy Machine.fold t i = .error e) :
    ∃ o, i.Computes t o ∧
      (∀ k ∈ i.inputs, ∃ a, t.appearance? k = some a ∧ a.isLiteral ∧ a.kind.isScalar) ∧
      (i.evaluate t .initial).toOption = none := by
  obtain ⟨o, computes, hs⟩ | ⟨-, hs⟩ := toOption_step policy Machine.fold covered
  · rw [h] at hs
    split at hs
    · exact ⟨o, computes, Instruction.fails_of_expression? computes covered
        (Option.map_eq_none_iff.mp hs.symm)⟩
    · cases hs
  · rw [h] at hs
    cases hs

theorem table_fold (w : Workspace) (h : Handle) (e : ScalarText) :
    (w.fold h e).table = w.table.modify h (·.foldInto e.text e.precedence) := by
  unfold Workspace.fold Workspace.release
  split <;> rfl

theorem content?_fold (w : Workspace) (h : Handle) (e : ScalarText) (k : Handle) :
    (w.fold h e).table.content? k = w.table.content? k := by
  rw [table_fold, Table.content?_modify_foldInto]

/-- Folding goes through the instructions up to one that it fails on. -/
theorem run_spec (policy : Policy) (folder : Folder) (w : Workspace) (is : List Instruction)
    (covered : ∀ i ∈ is, i.Covered w.table) (typed : ∀ i ∈ is, i.Typed w.table) :
    ∃ done rest done', is = done ++ rest ∧
      (run policy folder w is).instructions = done' ++ rest ∧
      Shortens (Folds policy folder) w.table done done' (run policy folder w is).workspace.table ∧
      ∀ e, (run policy folder w is).failure = some e → ∃ i tail, rest = i :: tail ∧
        step policy folder (run policy folder w is).workspace.table i = .error e := by
  fun_induction run policy folder w is with
  | case1 w => exact ⟨[], [], [], rfl, rfl, .nil w.table, by simp⟩
  | case2 w last => exact ⟨[last], [], [last], rfl, rfl, .keep last (.nil w.table), by simp⟩
  | case3 w i next rest e failed =>
      refine ⟨[], i :: next :: rest, [], rfl, rfl, .nil w.table, fun e' he => ?_⟩
      cases he
      exact ⟨i, next :: rest, rfl, failed⟩
  | case4 w i next rest kept f ih =>
      obtain ⟨done, left, done', split, kept', shortens, failure⟩ :=
        ih (List.forall_mem_cons.mp covered).2 (List.forall_mem_cons.mp typed).2
      exact ⟨i :: done, left, i :: done', congrArg (i :: ·) split, congrArg (i :: ·) kept',
        .keep i shortens, failure⟩
  | case5 w i next rest o e folded f ih =>
      obtain ⟨head, tail⟩ := List.forall_mem_cons.mp covered
      obtain ⟨typedHead, typedTail⟩ := List.forall_mem_cons.mp typed
      obtain ⟨computes, text⟩ := folds_of_step head typedHead folded
      have kinds (k : Handle) : (w.fold o e).table.kind? k = w.table.kind? k := by
        rw [Table.kind?_eq_content?, Table.kind?_eq_content?, content?_fold]
      obtain ⟨done, left, done', split, kept', shortens, failure⟩ :=
        ih (fun j hj => (tail j hj).congr (content?_fold w o e))
          fun j hj => (typedTail j hj).congr kinds
      rw [table_fold] at shortens
      exact ⟨i :: done, left, done', congrArg (i :: ·) split, kept', .fold computes text shortens,
        failure⟩

theorem shortens_run (policy : Policy) (folder : Folder) (w : Workspace) (is : List Instruction)
    (covered : ∀ i ∈ is, i.Covered w.table) (typed : ∀ i ∈ is, i.Typed w.table) :
    Shortens (Folds policy folder) w.table is (run policy folder w is).instructions
      (run policy folder w is).workspace.table := by
  obtain ⟨done, rest, done', split, kept, shortens, -⟩ := run_spec policy folder w is covered typed
  have whole := shortens.append rest
  rwa [← split, ← kept] at whole

/-- Folding by running is a reduction. -/
theorem reduces_run (policy : Policy) (w : Workspace) (is : List Instruction)
    (covered : ∀ i ∈ is, i.Covered w.table) (typed : ∀ i ∈ is, i.Typed w.table) :
    Reduces w.table is (run policy Machine.fold w is).instructions
      (run policy Machine.fold w is).workspace.table :=
  (shortens_run policy Machine.fold w is covered typed).mono fun computes f => f.amountsTo computes

/-- When folding fails, so does every run. -/
theorem advance_of_failure {w : Workspace} {is : List Instruction} {out : Handle → Prop}
    {m : Machine} {e : Failure} (covered : ∀ i ∈ is, i.Covered w.table)
    (foldable : Foldable w.table out is) (kinded : m.store.WellKinded w.table)
    (failed : (run policy Machine.fold w is).failure = some e) :
    (Machine.advance w.table is m).2 ≠ [] := by
  obtain ⟨done, rest, done', split, -, shortens, failure⟩ :=
    run_spec policy Machine.fold w is covered foldable.typed
  have reduces : Reduces w.table done done' _ := shortens.mono fun computes f => f.amountsTo computes
  obtain ⟨i, tail, rfl, step⟩ := failure e failed
  generalize (run policy Machine.fold w is).workspace.table = t' at reduces step
  subst split
  by_cases stopped : (Machine.advance w.table done m).2 = []
  · have ran : Machine.advance w.table done m = ((Machine.advance w.table done m).1, []) :=
      Prod.ext rfl stopped
    obtain ⟨w', left, -, folded, follows⟩ := Follows.advance reduces (foldable.left done)
      ⟨fun _ => rfl, fun _ _ => rfl⟩ (.refl _ kinded)
    rw [ran] at left folded follows
    generalize (Machine.advance w.table done m).1 = m₁ at follows ran
    obtain rfl : w' = t' := by
      generalize (Machine.advance t' done' m).2 = left' at left
      cases left
      rfl
    -- what the instruction reads is live here, and the table shows it as literals
    have linked (k : Handle) (hk : k ∈ i.inputs) := follows.linked k
      (.inl (Instruction.mem_uses_of_mem_sources (Instruction.mem_sources_of_mem_inputs hk)))
    have coveredThen := (covered i (by simp)).congr reduces.content?
    obtain ⟨o, computes, literal, initial⟩ := fails_of_step coveredThen step
    obtain ⟨kind, hk, scalar⟩ := computes.scalar
    have fails : (i.evaluate w.table m₁).toOption = none := by
      have same := Instruction.toOption_evaluate_of_literals computes.range computes.blocks literal
        linked follows.kinded
        (fun h _ => by rw [Table.kind?_eq_content?, Table.kind?_eq_content?, folded.content])
        m₁.generator
      have unmoved := Instruction.toOption_evaluate_generator computes.output hk scalar computes.range
        computes.primitive .empty .initial m₁.generator
      rw [same, unmoved, ← Machine.initial.eq_1, initial]
      rfl
    rw [Machine.advance_append ran]
    simp [Machine.advance, fails]
  · rw [Machine.advance_append_of_ne (i :: tail) stopped]
    simp

end Folding
end MatrixCode
