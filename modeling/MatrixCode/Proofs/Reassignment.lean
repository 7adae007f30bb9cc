import MatrixCode.Proofs.Building

/-!
Final copies of drafts that assign variables more than once. The target of the final copy takes
the place of its source, so its value moves back to where the source is written. This is right
when the target is not written from there on, and wrong otherwise: an assignment in between then
survives the equation.
-/

namespace MatrixCode

theorem Draft.Formed.searchable {d : Draft} (formed : d.Formed) :
    d.program.Searchable d.workspace.table where
  range := formed.ranges
  copied i hi plain h hh := by
    obtain ⟨target, output, found⟩ := formed.written i hi
    obtain ⟨source, copies⟩ := formed.copies hi plain output
    rcases hh with input | written
    · obtain rfl : source = h := by simpa [copies.inputs] using input
      obtain ⟨left, -, -, hl, -⟩ := copies.form
      exact Table.isSome_get?_of_kind? hl
    · obtain rfl := Option.some.inj (output.symm.trans written)
      exact found

/-- Dropping the final copy keeps the values of all variables of the user, provided that the
target is not written once the source is, and that neither is named like a literal. -/
theorem Draft.Built.run_dropTrailingCopy {d : Draft} (built : d.Built)
    (reads : ∀ done i rest, d.program.instructions = done ++ i :: rest →
      ∀ k ∈ i.uses d.workspace.table, d.workspace.table.IsTemporary k →
        k ∈ Instruction.outputs done)
    (late : ∀ body last source target,
      d.program.EndsInCopy d.workspace.table body last source target →
      ∀ done i rest, body = done ++ i :: rest → i.output = some target →
        source ∉ Instruction.outputs done)
    (named : ∀ body last source target,
      d.program.EndsInCopy d.workspace.table body last source target →
      ∀ h ∈ [source, target], ∀ v, d.workspace.table.get? h = some v → v.isLiteral = false) :
    ∃ b d', Yields Drafting.dropTrailingCopy d b d' ∧
      ∀ m m₁, m.store.WellKinded d.workspace.table →
        Yields (Machine.run d.workspace.table d.program) m () m₁ →
        ∃ m₂, Yields (Machine.run d'.workspace.table d'.program) m () m₂ ∧
          ∀ h, d.IsUser h → m₂.store.get? h = m₁.store.get? h := by
  have formed := built.formed
  obtain ⟨body, last, source, target, ends, ran⟩ | ⟨-, ran⟩ :=
    Drafting.yields_dropTrailingCopy formed.searchable
  · have literal {h : Handle} (hh : h ∈ [source, target]) (a : Appearance)
        (ha : d.workspace.table.appearance? h = some a) : a.isLiteral = false := by
      obtain ⟨v, hv, rfl⟩ := Option.map_eq_some_iff.mp ha
      exact named body last source target ends h hh v hv
    have opened : ¬Live d.workspace.table d.IsUser d.program.instructions source :=
      Live.not_of_used (fun user => user ends.temporary) fun done i rest split used =>
        reads done i rest split source used ends.temporary
    have stands := ends.standsIn opened (literal (by simp)) (literal (by simp))
      (late body last source target ends)
    obtain ⟨source', copies⟩ := formed.copies (by simp [ends.split]) ends.isPlainCopy ends.output
    obtain rfl : source' = source := by simpa [copies.inputs] using ends.input
    have agrees := agrees_dropTrailingCopy ends.split copies stands fun i hi =>
      formed.typed i (by simp [ends.split, hi])
    refine ⟨true, _, ran, fun m m₁ kinded finished => ?_⟩
    obtain ⟨m₂, finished', -, same⟩ := agrees.run kinded finished
    exact ⟨m₂, finished', same⟩
  · exact ⟨false, d, ran, fun m m₁ _ finished => ⟨m₁, finished, fun _ _ => rfl⟩⟩

/-- The integer `x` is `m` first, and `-n` in the end. -/
def Drafting.assignedBefore : Drafting Unit := do
  let _ ← apply (Request.copy ⟨3⟩ ⟨4⟩).perform
  let negated ← apply (Request.unary .negate ⟨2⟩).perform
  assign negated ⟨4⟩

/-- The integer `x` is `m` first, and `-n` in the end, which is computed before. -/
def Drafting.assignedBetween : Drafting Unit := do
  let negated ← apply (Request.unary .negate ⟨2⟩).perform
  let _ ← apply (Request.copy ⟨3⟩ ⟨4⟩).perform
  assign negated ⟨4⟩

theorem Draft.run_dropTrailingCopy_assignedBefore :
    let d := ofEquation .assignedBefore (.ofIntegers ["n", "m", "x"])
    ∃ d', Yields Drafting.dropTrailingCopy d true d' ∧
      ∀ m m₁, m.store.WellKinded d.workspace.table →
        Yields (Machine.run d.workspace.table d.program) m () m₁ →
        ∃ m₂, Yields (Machine.run d'.workspace.table d'.program) m () m₂ ∧
          ∀ h, d.IsUser h → m₂.store.get? h = m₁.store.get? h := by
  intro d
  have ran : Yields Drafting.assignedBefore ⟨.ofIntegers ["n", "m", "x"], .empty⟩ () d :=
    yields_of_toOption (by decide +kernel)
  obtain ⟨_, _, first, ran⟩ := ran.of_bind
  obtain ⟨_, _, second, assigned⟩ := ran.of_bind
  have built : d.Built := .assign (.request (.request (.start _) _ _ first) _ _ second) _ _ assigned
  have ends {body : List Instruction} {last : Instruction} {source target : Handle}
      (ends : d.program.EndsInCopy d.workspace.table body last source target) :
      body = d.program.instructions.dropLast ∧ source = ⟨5⟩ ∧ target = ⟨4⟩ := by
    have found := ends.toOption_trailingCopy? built.formed.searchable
    have computed : (d.program.trailingCopy? d.workspace.table).toOption =
        some (some (⟨5⟩, ⟨4⟩)) := by decide +kernel
    simp_all [ends.split]
  have dropped : (Drafting.dropTrailingCopy.run.run d).1.toOption = some true := by decide +kernel
  obtain ⟨b, d', ran, alike⟩ := built.run_dropTrailingCopy (forall_of_take (by decide +kernel))
    (fun body last source target found => by
      obtain ⟨rfl, rfl, rfl⟩ := ends found
      exact forall_of_take (by decide +kernel))
    (fun body last source target found => by
      obtain ⟨rfl, rfl, rfl⟩ := ends found
      change ∀ h ∈ [(⟨5⟩ : Handle), ⟨4⟩], ∀ v ∈ d.workspace.table.get? h, v.isLiteral = false
      decide +kernel)
  rw [ran] at dropped
  obtain rfl : b = true := Option.some.inj dropped
  exact ⟨d', ran, alike⟩

/-- An assignment between the source and the final copy is lost before the final copy is dropped,
and survives afterwards: `x` is `-n` with the copy and `m` without it. -/
theorem Draft.dropTrailingCopy_assignedBetween :
    let d := ofEquation .assignedBetween (.ofIntegers ["n", "m", "x"])
    let m : Machine := ⟨(Store.empty.set ⟨2⟩ (.integer 1)).set ⟨3⟩ (.integer 7), .initial⟩
    d.Built ∧ m.store.WellKinded d.workspace.table ∧
      (∀ o ∈ Instruction.outputs d.program.instructions, d.workspace.table.IsTemporary o →
        (Instruction.outputs d.program.instructions).count o = 1) ∧
      (∀ done i rest, d.program.instructions = done ++ i :: rest →
        ∀ k ∈ i.uses d.workspace.table, d.workspace.table.IsTemporary k →
          k ∈ Instruction.outputs done) ∧
      ∃ d' m₁ m₂, Yields Drafting.dropTrailingCopy d true d' ∧
        Yields (Machine.run d.workspace.table d.program) m () m₁ ∧
        Yields (Machine.run d'.workspace.table d'.program) m () m₂ ∧
        (m₁.store.get? ⟨4⟩).bind Value.integer? = some (-1) ∧
        (m₂.store.get? ⟨4⟩).bind Value.integer? = some 7 := by
  intro d m
  have ran : Yields Drafting.assignedBetween ⟨.ofIntegers ["n", "m", "x"], .empty⟩ () d :=
    yields_of_toOption (by decide +kernel)
  obtain ⟨_, _, first, ran⟩ := ran.of_bind
  obtain ⟨_, _, second, assigned⟩ := ran.of_bind
  have kinded := ((Store.wellKinded_empty d.workspace.table).set (h := ⟨2⟩) (x := .integer 1)
    (by decide +kernel)).set (h := ⟨3⟩) (x := .integer 7) (by decide +kernel)
  refine ⟨.assign (.request (.request (.start _) _ _ first) _ _ second) _ _ assigned, kinded,
    by decide +kernel, forall_of_take (by decide +kernel), _, _, _, yields_of_toOption ?_,
    yields_of_toOption ?_, yields_of_toOption ?_, ?_, ?_⟩
  all_goals decide +kernel

end MatrixCode
