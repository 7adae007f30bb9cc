import MatrixCode.Proofs.Scoping

/-!
Texts that name the target. When the final copy is dropped, the target is written where the source of
the copy was, and whatever stands behind that place sees the new value. An instruction that reads the
target keeps the copy from being dropped, but the search does not look into texts: an instruction
behind may still read one that was folded from the old value. It needs an instruction there that reads
what was computed from the target, so without such an instruction no text is stale.
-/

namespace MatrixCode

/-- The handle is computed from a value by scalar instructions, one or more. -/
inductive Instruction.ComputedFrom (t : Table) (is : List Instruction) (h : Handle) : Handle → Prop where
  | direct {i : Instruction} {o : Handle} (mem : i ∈ is) (computes : i.Computes t o)
      (input : h ∈ i.inputs) : ComputedFrom t is h o
  | through {i : Instruction} {o k : Handle} (mem : i ∈ is) (computes : i.Computes t o)
      (input : k ∈ i.inputs) (rest : ComputedFrom t is h k) : ComputedFrom t is h o

namespace Draft

/-- The variable was a temporary, and has become a text that names the word. -/
def FoldedNaming (d d' : Draft) (word : String) (k : Handle) : Prop :=
  d.workspace.table.IsTemporary k ∧ ∃ v, d'.workspace.table.get? k = some v ∧
    v.temporary = false ∧ word ∈ Identifier.free v.operand

/-- No instruction behind one that writes the target reads a variable in `p`. -/
def UnreadBehind (d : Draft) (target : Handle) (p : Handle → Prop) : Prop :=
  ∀ done i rest, d.program.instructions = done ++ i :: rest → i.output = some target →
    ∀ j ∈ rest, ∀ k ∈ j.sources d.workspace.table, ¬p k

section UnreadBehind

variable {d d' : Draft} {body : List Instruction} {last : Instruction} {source target : Handle}
  {p : Handle → Prop}

/-- Variables of the user are read under their own names after a round of sharing. -/
theorem SharedBy.unreadBehind {f : Handle → Handle} (s : d.SharedBy f d') (user : d.IsUser target)
    (users : ∀ k, p k → d.IsUser k) (unread : d.UnreadBehind target p) :
    d'.UnreadBehind target p := by
  have kept {h k : Handle} (hk : d.IsUser k) (same : f h = k) : h = k := by
    subst same
    exact (s.fixed h (s.within h hk)).symm
  intro done' i' rest' split' output' j' hj' k' hk' bad
  rw [s.renamed.instructions] at split'
  obtain ⟨done, more, split, rfl, same⟩ := List.map_eq_append_iff.mp split'
  obtain ⟨i, rest, rfl, rfl, rfl⟩ := List.map_eq_cons_iff.mp same
  obtain ⟨o, output, target'⟩ := Option.map_eq_some_iff.mp output'
  obtain rfl := kept user target'
  obtain ⟨j, hj, rfl⟩ := List.mem_map.mp hj'
  rw [s.renamed.sources_rename s.merges.keeps (by simp [split, hj])] at hk'
  obtain ⟨k, hk, read⟩ := List.mem_map.mp hk'
  obtain rfl := kept (users k' bad) read
  exact unread done i rest split output j hj k hk bad

theorem Shared.unreadBehind (s : Shared d d') (user : d.IsUser target)
    (users : ∀ k, p k → d.IsUser k) (unread : d.UnreadBehind target p) :
    d'.UnreadBehind target p := by
  induction s with
  | refl d => exact unread
  | step f first rest ih =>
      have still (h : Handle) := (first.renamed.isUser h).mpr
      exact ih (still target user) (fun k hk => still k (users k hk))
        (first.unreadBehind user users unread)

/-- Nothing stands behind the final instruction. -/
theorem Assigning.unreadBehind (a : d.Assigning body last target) : d.UnreadBehind target p := by
  intro done i rest split output j hj
  rw [a.split] at split
  obtain rfl | ⟨front, final, rfl⟩ := List.eq_nil_or_concat rest
  · cases hj
  · rw [List.concat_eq_append, ← List.cons_append, ← List.append_assoc] at split
    obtain ⟨rfl, -⟩ := List.append_inj' split rfl
    exact absurd (Instruction.mem_outputs.mpr ⟨i, by simp, output⟩) a.apart

/-- Without its final copy the draft writes the target where it wrote the source. -/
theorem Assigning.unreadBehind_drop (a : d.Assigning body last target)
    (ends : d.program.EndsInCopy d.workspace.table body last source target) (fresh : ¬p target)
    (behind : ∀ done i rest, body = done ++ i :: rest → i.output = some source →
      ∀ j ∈ rest, ∀ k ∈ j.sources d.workspace.table, ¬p k) :
    (d.dropTrailingCopy source target).UnreadBehind target p := by
  have copies := a.copies_of_endsInCopy ends
  have renamed := renamedBy_drop copies
  have keeps : Table.Keeps (Handle.replace source target) d.workspace.table :=
    .replace ends.kind copies.kind_source
  have whole : d.withoutLast.program.instructions = body := by simp [Draft.withoutLast, a.split]
  intro done' i' rest' split' output' j' hj' k' hk' bad
  rw [renamed.instructions, whole] at split'
  obtain ⟨done, more, split, rfl, same⟩ := List.map_eq_append_iff.mp split'
  obtain ⟨i, rest, rfl, rfl, rfl⟩ := List.map_eq_cons_iff.mp same
  obtain ⟨o, output, target'⟩ := Option.map_eq_some_iff.mp output'
  obtain rfl : o = source := by
    by_contra other
    rw [Handle.replace, if_neg other] at target'
    subst target'
    exact a.apart (Instruction.mem_outputs.mpr ⟨i, by simp [split], output⟩)
  obtain ⟨j, hj, rfl⟩ := List.mem_map.mp hj'
  rw [renamed.sources_rename keeps (by simp [whole, split, hj])] at hk'
  obtain ⟨k, hk, rfl⟩ := List.mem_map.mp hk'
  by_cases same : k = o
  · rw [Handle.replace, if_pos same] at bad
    exact fresh bad
  · rw [Handle.replace, if_neg same] at bad
    exact behind done i rest split output j hj k hk bad

end UnreadBehind

/-- What folding by writing leaves names the target only where it was computed from the target. -/
theorem SingleEquation.namesWithin_folded {d : Draft} {body body' : List Instruction}
    {last : Instruction} {target : Handle} (single : d.SingleEquation body last target)
    {name : String} {content : Content}
    (entry : d.workspace.table.get? target = some (.named name content))
    (alone : d.workspace.table.NamesWithin (fun h => ∃ i ∈ body, h ∈ i.inputs)
      fun h word => word = name → h = target)
    {w : Writer} {kernels : List String} (path : Grammar.IsPath w.kernels kernels) {policy : Policy}
    {t' : Table} (r : Shortens (Folding.Folds policy w.fold) d.workspace.table body body' t') :
    t'.NamesWithin (fun h => d.workspace.table.IsTemporary h ∨ ∃ i ∈ body, h ∈ i.inputs)
      fun h word => word = name → h = target ∨
        policy.contains .scalars ∧ Instruction.ComputedFrom d.workspace.table body target h := by
  refine r.namesWithin (w.namesOperands_fold path) (fun i hi k hk => .inr ⟨i, hi, hk⟩)
    (fun i hi o computes k hk known word hw same => .inr ?_)
    (fun i hi k hk v => single.constant_eq_false (by simp [single.split, hi])
      (Instruction.mem_sources_of_mem_inputs hk))
    fun h v hh hv user scalar => (alone.orTemporary h v hh hv user scalar).mono
      fun word hw same => .inl (hw same)
  obtain rfl | ⟨scalars, computed⟩ := hw same
  · have knows := known _ entry rfl
    refine ⟨?_, .direct hi computes hk⟩
    simp only [Policy.knows, Variable.named, Bool.and_false, Bool.false_or, Bool.not_false,
      Bool.and_true, Bool.and_eq_true] at knows
    exact knows.2
  · exact ⟨scalars, .through hi computes hk computed⟩

/-- No text is stale when, behind the instruction that computes the assigned value, nothing is read
that was computed from the target, or when the policy does not know variables of the user. -/
theorem SingleEquation.unreadBehind_optimize {d d' : Draft} {body : List Instruction}
    {last : Instruction} {target : Handle} (single : d.SingleEquation body last target)
    {name : String} {content : Content}
    (entry : d.workspace.table.get? target = some (.named name content))
    (alone : d.workspace.table.NamesWithin (fun h => ∃ i ∈ body, h ∈ i.inputs)
      fun h word => word = name → h = target)
    {w : Writer} {kernels : List String} (path : Grammar.IsPath w.kernels kernels) {policy : Policy}
    (behind : policy.contains .scalars → ∀ done i rest, body = done ++ i :: rest →
      (∃ source ∈ last.inputs, i.output = some source) →
      ∀ j ∈ rest, ∀ k ∈ j.sources d.workspace.table,
        ¬Instruction.ComputedFrom d.workspace.table body target k)
    {report : Report} (ran : Yields (Drafting.optimize policy w.fold) d report d') :
    d'.UnreadBehind target (FoldedNaming d d' name) := by
  obtain ⟨body', shortens, assigning, passed⟩ := single.passes_of_optimize ran
  have within := single.namesWithin_folded entry alone path shortens
  -- sharing leaves the texts as folding wrote them
  have text {k : Handle} (texts : SameBut (d.foldedBy policy w.fold) d')
      (folded : FoldedNaming d d' name k) : (d.foldedBy policy w.fold).IsUser k ∧
        policy.contains .scalars ∧ Instruction.ComputedFrom d.workspace.table body target k := by
    obtain ⟨temporary, v', hv', user, mentions⟩ := folded
    obtain ⟨v, f, hv, rfl⟩ := texts.exists_of_get? hv'
    rw [Variable.temporary_mapRange] at user
    rw [Variable.operand_mapRange] at mentions
    have user' : (d.foldedBy policy w.fold).IsUser k := by
      rintro ⟨u, hu, temporary⟩
      obtain rfl := Option.some.inj (hv.symm.trans hu)
      simp [user] at temporary
    obtain ⟨kind, hk, scalar⟩ := shortens.scalar temporary user'
    rw [← shortens.kind?, Table.kind?, hv] at hk
    obtain rfl := Option.some.inj hk
    obtain rfl | computed := (within k v (.inl temporary) hv user scalar).free name mentions rfl
    · exact absurd temporary single.user
    · exact ⟨user', computed⟩
  obtain shared | ⟨source, ends, shared⟩ := passed
  · exact shared.unreadBehind assigning.user (fun k hk => (text shared.sameBut hk).1)
      assigning.unreadBehind
  · have renamed := renamedBy_drop (assigning.copies_of_endsInCopy ends)
    have texts := renamed.sameBut.trans shared.sameBut
    have isUser := renamed.isUser
    refine shared.unreadBehind ((isUser target).mpr assigning.user)
      (fun k hk => (isUser k).mpr (text texts hk).1)
      (assigning.unreadBehind_drop ends (fun stale => single.user stale.1) ?_)
    intro done₀ i rest₀ split output j hj k hk stale
    obtain ⟨-, scalars, computed⟩ := text texts stale
    -- what stands behind in the folded draft stood behind before
    have sub := shortens.sublist
    rw [split, List.append_sublist_iff] at sub
    obtain ⟨done, more, rfl, -, inner⟩ := sub
    obtain ⟨front, rest, rfl, hi, later⟩ := List.cons_sublist_iff.mp inner
    obtain ⟨front₁, front₂, rfl⟩ := List.append_of_mem hi
    have input : source ∈ last.inputs := List.mem_of_head? ends.input
    rw [Instruction.sources_congr shortens.content?] at hk
    exact behind scalars (done ++ front₁) i (front₂ ++ rest) (by simp) ⟨source, input, output⟩ j
      (List.mem_append_right _ (later.subset hj)) k hk computed

end Draft

/-- Two seeds in the integers `m` and `n`, the second of them `-n`. One of the two is assigned to `n`. -/
def Drafting.reseeding (second : Bool) : Drafting Unit := do
  let first ← apply (Request.unary .reseed ⟨2⟩).perform
  let negated ← apply (Request.unary .negate ⟨3⟩).perform
  let again ← apply (Request.unary .reseed negated).perform
  assign (if second then again else first) ⟨3⟩

/-- The draft of the two seeds. -/
def Draft.reseeding (second : Bool) : Draft :=
  ofEquation (.reseeding second) (.ofIntegers ["m", "n"])

theorem Draft.singleEquation_reseeding (second : Bool) :
    ∃ last, (reseeding second).SingleEquation (reseeding second).program.instructions.dropLast last ⟨3⟩ ∧
      last.inputs = [if second then ⟨6⟩ else ⟨4⟩] := by
  have ran : Yields (Drafting.reseeding second) ⟨.ofIntegers ["m", "n"], .empty⟩ ()
      (reseeding second) := by
    cases second
    all_goals exact yields_of_toOption (by decide +kernel)
  obtain ⟨_, _, one, ran⟩ := ran.of_bind
  obtain ⟨_, _, two, ran⟩ := ran.of_bind
  obtain ⟨_, _, three, assigned⟩ := ran.of_bind
  have built : (reseeding second).Built :=
    .assign (.request (.request (.request (.start _) _ _ one) _ _ two) _ _ three) _ _ assigned
  have nonempty : (reseeding second).program.instructions ≠ [] := by
    cases second
    all_goals decide +kernel
  have copy : ∀ i ∈ (reseeding second).program.instructions.getLast?,
      i.primitive = .copy ∧ i.output = some ⟨3⟩ ∧ i.inputs = [if second then ⟨6⟩ else ⟨4⟩] := by
    cases second
    all_goals decide +kernel
  obtain ⟨assigns, output, input⟩ := copy _ (List.getLast?_eq_some_getLast nonempty)
  refine ⟨_, ⟨built, (List.dropLast_append_getLast nonempty).symm, ?_, assigns, output, ?_,
    forall_of_take ?_⟩, input⟩
  all_goals
    cases second
    all_goals decide +kernel

theorem Draft.unreadBehind_reseeding : ∃ report d',
    Yields (Drafting.optimize .standard Writer.standard.fold) (reseeding true) report d' ∧
      report.trailingCopyRemoved ∧ d'.UnreadBehind ⟨3⟩ (FoldedNaming (reseeding true) d' "n") := by
  obtain ⟨last, single, input⟩ := singleEquation_reseeding true
  have removed : ((Drafting.optimize .standard Writer.standard.fold).run.run
      (reseeding true)).1.toOption.any (·.trailingCopyRemoved) := by decide +kernel
  obtain ⟨report, found, copied⟩ := (Option.any_eq_true _ _).mp removed
  have ran := yields_of_toOption found
  have path : Grammar.IsPath Writer.standard.kernels ["mateq", "kernels"] := by decide
  have inputs : ∀ i ∈ (reseeding true).program.instructions.dropLast, ∀ h ∈ i.inputs,
      h ∈ [⟨2⟩, ⟨3⟩, ⟨5⟩] := by decide +kernel
  have alone : (reseeding true).workspace.table.NamesWithin
      (fun h => ∃ i ∈ (reseeding true).program.instructions.dropLast, h ∈ i.inputs)
      fun h word => word = "n" → h = ⟨3⟩ := by
    rintro h v ⟨i, hi, hh⟩ hv user scalar
    obtain rfl | rfl | rfl : h = ⟨2⟩ ∨ h = ⟨3⟩ ∨ h = ⟨5⟩ := by simpa using inputs i hi h hh
    all_goals obtain rfl := Option.some.inj hv
    · exact .of_isName (by decide) (by decide)
    · exact .of_isName (by decide) fun _ => rfl
    · cases user
  have entry : (reseeding true).workspace.table.get? ⟨3⟩ = some (.named "n" .integer) := rfl
  refine ⟨report, _, ran, copied,
    single.unreadBehind_optimize entry alone path ?_ ran⟩
  -- the assigned seed is the last one
  have final : ∀ done i rest, (reseeding true).program.instructions.dropLast = done ++ i :: rest →
      i.output = some ⟨6⟩ → done.length = 2 := forall_of_take (by decide +kernel)
  have whole : (reseeding true).program.instructions.dropLast.length = 3 := by decide +kernel
  rintro - done i rest split ⟨source, member, output⟩ j hj
  obtain rfl : source = ⟨6⟩ := by simpa [input] using member
  have length := congrArg List.length split
  simp only [whole, List.length_append, final done i rest split output, List.length_cons] at length
  rw [List.length_eq_zero_iff.mp (by omega : rest.length = 0)] at hj
  cases hj

/-- When the first seed is assigned, `n` is written before `-n` is read, and the text of `-n` means
the new value. -/
theorem Draft.stale_reseeding : ∃ last report d' i j k,
    (reseeding false).SingleEquation (reseeding false).program.instructions.dropLast last ⟨3⟩ ∧
      Yields (Drafting.optimize .standard Writer.standard.fold) (reseeding false) report d' ∧
      report.trailingCopyRemoved ∧ d'.program.instructions = [i, j] ∧ i.output = some ⟨3⟩ ∧
      k ∈ j.sources d'.workspace.table ∧ FoldedNaming (reseeding false) d' "n" k := by
  obtain ⟨last, single, -⟩ := singleEquation_reseeding false
  have removed : ((Drafting.optimize .standard Writer.standard.fold).run.run
      (reseeding false)).1.toOption.any (·.trailingCopyRemoved) := by decide +kernel
  obtain ⟨report, found, copied⟩ := (Option.any_eq_true _ _).mp removed
  let d' := ((Drafting.optimize .standard Writer.standard.fold).run.run (reseeding false)).2
  have left : d'.program.instructions.map (fun i => (i.output, i.sources d'.workspace.table)) =
      [(some ⟨3⟩, [⟨2⟩]), (some ⟨6⟩, [⟨5⟩])] := by decide +kernel
  obtain ⟨i, rest, whole, first, more⟩ := List.map_eq_cons_iff.mp left
  obtain ⟨j, rfl, second⟩ := List.map_eq_singleton_iff.mp more
  have text : (d'.workspace.table.get? ⟨5⟩).map (fun v => (v.temporary, v.operand)) =
      some (false, "-" ++ "n") := by decide +kernel
  obtain ⟨v, hv, same⟩ := Option.map_eq_some_iff.mp text
  obtain ⟨user, operand⟩ := Prod.mk.inj same
  refine ⟨last, report, d', i, j, ⟨5⟩, single, yields_of_toOption found, copied, whole,
    (Prod.mk.inj first).1, (Prod.mk.inj second).2 ▸ List.mem_singleton_self _, by decide +kernel,
    v, hv, user, ?_⟩
  rw [operand, Identifier.free_negated, Identifier.free_of_isName (by decide)]
  decide

end MatrixCode
