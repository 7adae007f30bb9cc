import MatrixCode.Proofs.Building
import MatrixCode.Proofs.Sharing

/-!
The optimizer as a whole. Folding is a reduction, dropping the final copy lets its target stand
in for its source, and sharing renames temporaries; each pass takes a sound draft to a sound
draft that agrees with it. So the optimizer keeps the meaning of the draft of an equation, and
it fails only where every run of the draft fails.
-/

namespace MatrixCode

namespace Shortens

variable {folds : Table → Instruction → Handle → ScalarText → Prop} {t t' : Table}
  {body is' : List Instruction} {last : Instruction}

/-- The last instruction is kept, or its output is a text in the end. -/
theorem of_concat (r : Shortens folds t (body ++ [last]) is' t') :
    (∃ body', is' = body' ++ [last] ∧ Shortens folds t body body' t') ∨
      ∃ o, last.output = some o ∧ t.IsTemporary o ∧ ¬t'.IsTemporary o := by
  induction body generalizing t is' with
  | nil =>
      cases r with
      | keep i rest =>
          cases rest
          exact .inl ⟨[], rfl, .nil t'⟩
      | @fold _ _ _ _ _ o e computes text rest =>
          cases rest
          exact .inr ⟨o, computes.output, computes.temporary, t.not_isTemporary_foldInto o _ _⟩
  | cons i body ih =>
      cases r with
      | keep i rest =>
          refine (ih rest).imp_left fun ⟨body', same, shortens⟩ => ?_
          exact ⟨i :: body', congrArg (i :: ·) same, .keep i shortens⟩
      | fold computes text rest =>
          refine (ih rest).imp (fun ⟨body', same, shortens⟩ => ?_) fun ⟨o, output, before, after⟩ => ?_
          · exact ⟨body', same, .fold computes text shortens⟩
          · exact ⟨o, output, Table.isTemporary_of_foldInto before, after⟩

/-- An instruction that writes a variable of the user is kept. -/
theorem of_concat_user {target : Handle} (output : last.output = some target)
    (user : ¬t.IsTemporary target) (r : Shortens folds t (body ++ [last]) is' t') :
    ∃ body', is' = body' ++ [last] ∧ Shortens folds t body body' t' := by
  refine r.of_concat.resolve_right ?_
  rintro ⟨o, written, temporary, -⟩
  obtain rfl := Option.some.inj (output.symm.trans written)
  exact user temporary

end Shortens

namespace Draft

/-- A sound draft whose last instruction alone writes the target. -/
structure Assigning (d : Draft) (body : List Instruction) (last : Instruction) (target : Handle) :
    Prop where
  sound : d.Sound
  split : d.program.instructions = body ++ [last]
  computes : ∀ i ∈ body, i.primitive ≠ .copy
  apart : target ∉ Instruction.outputs body
  output : last.output = some target
  user : d.IsUser target
  copies : last.isPlainCopy → ∃ source, last.Copies d.workspace.table source target

section Assigning

variable {d d' : Draft} {body : List Instruction} {last : Instruction} {source target : Handle}

theorem SingleEquation.assigning (single : d.SingleEquation body last target)
    (covered : ∀ i ∈ d.program.instructions, i.Covered d.workspace.table) :
    d.Assigning body last target where
  sound := single.sound covered
  split := single.split
  computes := single.computes
  apart := fun written => single.user (single.isTemporary_of_mem_outputs written)
  output := single.output
  user := single.user
  copies plain := single.built.formed.copies (by simp [single.split]) plain single.output

theorem Assigning.of_shortens {folds : Table → Instruction → Handle → ScalarText → Prop}
    (a : d.Assigning body last target)
    (shortens : Shortens folds d.workspace.table d.program.instructions d'.program.instructions
      d'.workspace.table) :
    ∃ body', Shortens folds d.workspace.table body body' d'.workspace.table ∧
      d'.Assigning body' last target := by
  have whole := shortens
  rw [a.split] at whole
  obtain ⟨body', split, shorter⟩ := whole.of_concat_user a.output a.user
  refine ⟨body', shorter, ?_⟩
  constructor
  · exact sound_of_shortens shortens a.sound
  · exact split
  · exact fun i hi => a.computes i (shorter.sublist.subset hi)
  · exact fun written => a.apart ((shorter.sublist.filterMap _).subset written)
  · exact a.output
  · exact fun temporary => a.user (shortens.isTemporary temporary)
  · intro plain
    obtain ⟨source, copies⟩ := a.copies plain
    exact ⟨source, copies.mono fun h kind hk => (shortens.kind? h).trans hk⟩

theorem Assigning.copies_of_endsInCopy (a : d.Assigning body last target)
    (ends : d.program.EndsInCopy d.workspace.table body last source target) :
    last.Copies d.workspace.table source target := by
  obtain ⟨source', copies⟩ := a.copies ends.isPlainCopy
  obtain rfl : source' = source := by simpa [copies.inputs] using ends.input
  exact copies

theorem Assigning.standsIn (a : d.Assigning body last target)
    (named : ∀ a, d.workspace.table.appearance? target = some a → a.isLiteral = false)
    (ends : d.program.EndsInCopy d.workspace.table body last source target) :
    StandsIn d.workspace.table body source target := by
  have written := a.sound.mem_outputs (i := last) (by simp [a.split])
    (Instruction.mem_mentions_of_mem_sources ends.mem_sources) ends.temporary
  refine ends.standsIn (a.sound.opened source ends.temporary)
    (fun b hb => a.sound.plain source written b ends.temporary hb) named ?_
  intro done i rest split written
  exact absurd (by simp [split, written]) a.apart

theorem Sound.withoutLast (sound : d.Sound) (split : d.program.instructions = body ++ [last]) :
    d.withoutLast.Sound := by
  have shorter : d.withoutLast.program.instructions = body := by simp [Draft.withoutLast, split]
  have inside {i : Instruction} (hi : i ∈ d.withoutLast.program.instructions) :
      i ∈ d.program.instructions := by
    rw [shorter] at hi
    simp [split, hi]
  constructor
  · exact fun i hi => sound.covered i (inside hi)
  · exact fun i hi => sound.typed i (inside hi)
  · intro o ho
    refine sound.plain o ?_
    rw [shorter] at ho
    simp [split, ho]
  · intro h temporary live
    rw [shorter] at live
    refine sound.opened h temporary ?_
    rw [split, Live.append]
    exact live.mono fun user => absurd temporary user

theorem fixed_of_isTemporary (temporary : d.workspace.table.IsTemporary source) (target : Handle)
    (h : Handle) (user : d.IsUser h) : Handle.replace source target h = h := by
  rw [Handle.replace, if_neg]
  rintro rfl
  exact user temporary

/-- Without its final copy a draft stays sound, however the target is called. -/
theorem Assigning.sound_drop (a : d.Assigning body last target)
    (ends : d.program.EndsInCopy d.workspace.table body last source target) :
    (d.dropTrailingCopy source target).Sound := by
  have copies := a.copies_of_endsInCopy ends
  refine (renamedBy_drop copies).sound (.replace ends.kind copies.kind_source) (fun h temporary => ?_)
    (fixed_of_isTemporary ends.temporary target) (a.sound.withoutLast a.split)
  rw [Handle.replace, if_neg]
  rintro rfl
  rw [Handle.replace, if_pos rfl] at temporary
  exact ends.user temporary

/-- The draft comes from another by renamings that keep the variables of the user, and by leaving
out last instructions. -/
inductive Derives : Draft → Draft → Prop where
  | refl (d : Draft) : Derives d d
  | withoutLast {d d' : Draft} (rest : Derives d.withoutLast d') : Derives d d'
  | rename {d d₁ d' : Draft} (f : Handle → Handle) (renamed : d.RenamedBy f d₁)
      (merges : Table.Merges f d.workspace.table) (fixed : ∀ h, d.IsUser h → f h = h)
      (rest : Derives d₁ d') : Derives d d'

/-- Variables change in their ranges only. -/
def SameBut (d d' : Draft) : Prop :=
  ∀ h, ∃ f, d'.workspace.table.get? h = (d.workspace.table.get? h).map (·.mapRange f)

theorem SameBut.refl (d : Draft) : SameBut d d :=
  fun h => ⟨id, by cases d.workspace.table.get? h <;> simp⟩

theorem SameBut.trans {d'' : Draft} (a : SameBut d d') (b : SameBut d' d'') : SameBut d d'' := by
  intro h
  obtain ⟨f, first⟩ := a h
  obtain ⟨g, second⟩ := b h
  refine ⟨g ∘ f, ?_⟩
  rw [second, first, Option.map_map]
  exact congrArg (Option.map · _) (funext fun v => Variable.mapRange_mapRange f g v)

theorem SameBut.exists_of_get? (same : SameBut d d') {h : Handle} {v' : Variable}
    (hv' : d'.workspace.table.get? h = some v') :
    ∃ v f, d.workspace.table.get? h = some v ∧ v' = v.mapRange f := by
  obtain ⟨f, entry⟩ := same h
  obtain ⟨v, hv, rfl⟩ := Option.map_eq_some_iff.mp (entry.symm.trans hv')
  exact ⟨v, f, hv, rfl⟩

theorem RenamedBy.sameBut {f : Handle → Handle} (r : RenamedBy f d d') : SameBut d d' := by
  intro h
  rw [r.entry]
  split
  · exact ⟨f, rfl⟩
  · exact ⟨id, by cases d.workspace.table.get? h <;> simp⟩

theorem Assigning.derives_drop (a : d.Assigning body last target)
    (named : ∀ a, d.workspace.table.appearance? target = some a → a.isLiteral = false)
    (ends : d.program.EndsInCopy d.workspace.table body last source target) :
    Derives d (d.dropTrailingCopy source target) := by
  have copies := a.copies_of_endsInCopy ends
  exact .withoutLast (.rename _ (renamedBy_drop copies) (merges_drop copies (a.standsIn named ends))
    (fixed_of_isTemporary ends.temporary target) (.refl _))

/-- No copy is left that could be dropped. -/
def Closed (d : Draft) : Prop :=
  ∀ body last source target, ¬d.program.EndsInCopy d.workspace.table body last source target

theorem Assigning.drop (a : d.Assigning body last target)
    (named : ∀ a, d.workspace.table.appearance? target = some a → a.isLiteral = false) :
    ∃ b d', Yields Drafting.dropTrailingCopy d b d' ∧ Agrees d.IsUser d d' ∧ d'.Sound ∧ d'.Closed ∧
      Derives d d' ∧ ∀ h, d'.IsUser h ↔ d.IsUser h := by
  obtain ⟨body', last', source, target', ends, ran⟩ | ⟨closed, ran⟩ :=
    Drafting.yields_dropTrailingCopy (Program.searchable_of_covered a.sound.covered)
  · obtain ⟨rfl, same⟩ := List.append_inj' (ends.split.symm.trans a.split) rfl
    obtain rfl : last' = last := by simpa using same
    obtain rfl : target' = target := Option.some.inj (ends.output.symm.trans a.output)
    have copies := a.copies_of_endsInCopy ends
    have stands := a.standsIn named ends
    have renamed := renamedBy_drop copies
    refine ⟨true, _, ran, ?_, a.sound_drop ends, ?_, a.derives_drop named ends, renamed.isUser⟩
    · exact agrees_dropTrailingCopy a.split copies stands fun i hi =>
        a.sound.typed i (by simp [a.split, hi])
    · intro body last'' source'' target ends'
      have split := ends'.split
      rw [renamed.instructions, show d.withoutLast.program.instructions = body' by
        simp [Draft.withoutLast, a.split]] at split
      have hm : last'' ∈ body'.map (.rename (Handle.replace source target')) := by simp [split]
      obtain ⟨i, hi, rfl⟩ := List.mem_map.mp hm
      have plain := ends'.isPlainCopy
      simp only [Instruction.isPlainCopy, Bool.and_eq_true, decide_eq_true_eq] at plain
      exact a.computes i hi plain.1.1
  · exact ⟨false, d, ran, .refl _ d, a.sound, closed, .refl d, fun _ => .rfl⟩

end Assigning

/-- Temporaries share storage, in some number of rounds. -/
inductive Shared : Draft → Draft → Prop where
  | refl (d : Draft) : Shared d d
  | step {d d₁ d' : Draft} (f : Handle → Handle) (first : d.SharedBy f d₁) (rest : Shared d₁ d') :
      Shared d d'

section Shared

variable {d d' : Draft} {f : Handle → Handle}

theorem SharedBy.sound (s : d.SharedBy f d') (sound : d.Sound) : d'.Sound :=
  s.renamed.sound s.merges.keeps (fun h _ => s.merges.alike h) s.fixed sound

theorem SharedBy.closed (s : d.SharedBy f d') (closed : d.Closed) : d'.Closed := by
  intro body' last' source' target' ends
  have split := ends.split
  rw [s.renamed.instructions] at split
  obtain ⟨body, rest, whole, rfl, same⟩ := List.map_eq_append_iff.mp split
  obtain ⟨last, rfl, rfl⟩ := List.map_eq_singleton_iff.mp same
  obtain ⟨source, input, rfl⟩ : ∃ source, last.inputs.head? = some source ∧ f source = source' := by
    simpa using ends.input
  obtain ⟨target, output, rfl⟩ := Option.map_eq_some_iff.mp ends.output
  have user : d.IsUser target := s.within target ((s.renamed.isUser _).mp ends.user)
  refine closed body last source target ⟨whole, by simpa using ends.isPlainCopy, input, output, ?_,
    user, ?_, ?_⟩
  · by_contra untouched
    have temporary := (s.renamed.isTemporary _).mp ends.temporary
    rw [s.fixed source untouched] at temporary
    exact untouched temporary
  · have kind := ends.kind
    rwa [s.renamed.kind?, s.renamed.kind?, s.merges.kind?, s.merges.kind?] at kind
  · intro i hi read
    refine ends.unread (i.rename f) (List.mem_map_of_mem hi) ?_
    rw [s.renamed.sources_rename s.merges.keeps (by simp [whole, hi]), ← s.fixed target user]
    exact List.mem_map_of_mem (by rwa [s.fixed target user])

theorem Shared.isUser (s : Shared d d') (h : Handle) : d'.IsUser h ↔ d.IsUser h := by
  induction s with
  | refl d => exact .rfl
  | step f first rest ih => exact ih.trans (first.renamed.isUser h)

theorem Shared.sameBut (s : Shared d d') : SameBut d d' := by
  induction s with
  | refl d => exact .refl d
  | step f first rest ih => exact first.renamed.sameBut.trans ih

theorem Shared.derives (s : Shared d d') : Derives d d' := by
  induction s with
  | refl d => exact .refl d
  | step f first rest ih => exact .rename f first.renamed first.merges first.fixed ih

theorem Derives.trans {d'' : Draft} (a : Derives d d') (b : Derives d' d'') : Derives d d'' := by
  induction a with
  | refl d => exact b
  | withoutLast rest ih => exact .withoutLast (ih b)
  | rename f renamed merges fixed rest ih => exact .rename f renamed merges fixed (ih b)

theorem Shared.trans {d'' : Draft} (a : Shared d d') (b : Shared d' d'') : Shared d d'' := by
  induction a with
  | refl d => exact b
  | step f first rest ih => exact .step f first (ih b)

theorem Shared.sound (s : Shared d d') (sound : d.Sound) : d'.Sound := by
  induction s with
  | refl d => exact sound
  | step f first rest ih => exact ih (first.sound sound)

theorem Shared.closed (s : Shared d d') (closed : d.Closed) : d'.Closed := by
  induction s with
  | refl d => exact closed
  | step f first rest ih => exact ih (first.closed closed)

theorem Shared.agrees (s : Shared d d') (sound : d.Sound) : Agrees d.IsUser d d' := by
  induction s with
  | refl d => exact .refl _ d
  | @step d d₁ d' f first rest ih =>
      have one := first.renamed.agrees first.merges first.fixed sound first.clear
      have more := ih (first.sound sound)
      exact one.trans (more.mono fun h => (first.renamed.isUser h).mpr)

end Shared

/-- The draft after constants were folded. -/
def foldedBy (policy : Policy) (folder : Folder) (d : Draft) : Draft :=
  let f := Folding.run policy folder d.workspace d.program.instructions
  { d with workspace := f.workspace, program.instructions := f.instructions }

/-- The draft after constants were folded by running. -/
def folded (policy : Policy) (d : Draft) : Draft := d.foldedBy policy Machine.fold

theorem reduces_folded (policy : Policy) {d : Draft}
    (covered : ∀ i ∈ d.program.instructions, i.Covered d.workspace.table)
    (typed : ∀ i ∈ d.program.instructions, i.Typed d.workspace.table) :
    Reduces d.workspace.table d.program.instructions (d.folded policy).program.instructions
      (d.folded policy).workspace.table :=
  Folding.reduces_run policy d.workspace d.program.instructions covered typed

end Draft

namespace Drafting

variable {policy : Policy} {d d' d₁ d₂ d₃ d₄ : Draft}

/-- Folding fails or succeeds, and in both cases what was folded stays folded. -/
theorem run_foldConstants (policy : Policy) (folder : Folder) (d : Draft) :
    (foldConstants policy folder).run.run d =
      (match (Folding.run policy folder d.workspace d.program.instructions).failure with
        | some e => .error e
        | none => .ok (Folding.run policy folder d.workspace d.program.instructions).removed,
      d.foldedBy policy folder) := by
  change ExceptT.run (match (Folding.run _ _ _ _).failure with
    | some e => throw e
    | none => pure (Folding.run _ _ _ _).removed : Drafting Nat) (d.foldedBy policy folder) = _
  cases (Folding.run policy folder d.workspace d.program.instructions).failure <;> rfl

theorem eq_folded {n : Nat} (ran : Yields (foldConstants policy Machine.fold) d n d') :
    d' = d.folded policy := by
  rw [Yields, run_foldConstants] at ran
  exact (Prod.mk.inj ran).2.symm

/-- The report on passes that succeed one after the other. -/
theorem optimize_of_passes {folder : Folder} {before after : Counts} {copied : Bool}
    {removed integers doubles matrices : Nat}
    (counted : Yields (query Program.countTemporaries) d before d)
    (folded : Yields (foldConstants policy folder) d removed d₁)
    (dropped : Yields dropTrailingCopy d₁ copied d₂)
    (first : Yields (shareTemporaries .integer) d₂ integers d₃)
    (second : Yields (shareTemporaries .double) d₃ doubles d₄)
    (third : Yields (shareTemporaries .matrix) d₄ matrices d')
    (recounted : Yields (query Program.countTemporaries) d' after d') :
    Yields (optimize policy folder) d ⟨d.program.size, d'.program.size, before, after, removed,
      ⟨integers, doubles, matrices⟩, copied⟩ d' :=
  have got (d : Draft) : Yields (get : Drafting Draft) d d d := rfl
  (got d).bind (counted.bind (folded.bind (dropped.bind (first.bind (second.bind
    (third.bind ((got d').bind (recounted.bind rfl))))))))

/-- The passes of the optimizer, one after the other. -/
theorem optimize_iff {folder : Folder} :
    (∃ report, Yields (optimize policy folder) d report d') ↔
      ∃ before removed copied integers doubles matrices after d₁ d₂ d₃ d₄,
        Yields (query Program.countTemporaries) d before d ∧
        Yields (foldConstants policy folder) d removed d₁ ∧
        Yields dropTrailingCopy d₁ copied d₂ ∧
        Yields (shareTemporaries .integer) d₂ integers d₃ ∧
        Yields (shareTemporaries .double) d₃ doubles d₄ ∧
        Yields (shareTemporaries .matrix) d₄ matrices d' ∧
        Yields (query Program.countTemporaries) d' after d' := by
  constructor
  · rintro ⟨report, ran⟩
    obtain ⟨_, _, got, ran⟩ := ran.of_bind
    cases got
    obtain ⟨before, d₀, counted, ran⟩ := ran.of_bind
    obtain rfl : d₀ = d := by
      rw [Yields, run_query] at counted
      exact (Prod.mk.inj counted).2.symm
    obtain ⟨removed, d₁, folded, ran⟩ := ran.of_bind
    obtain ⟨copied, d₂, dropped, ran⟩ := ran.of_bind
    obtain ⟨integers, d₃, first, ran⟩ := ran.of_bind
    obtain ⟨doubles, d₄, second, ran⟩ := ran.of_bind
    obtain ⟨matrices, d₅, third, ran⟩ := ran.of_bind
    obtain ⟨_, _, got, ran⟩ := ran.of_bind
    cases got
    obtain ⟨after, d₆, recounted, ran⟩ := ran.of_bind
    obtain rfl : d₆ = d₅ := by
      rw [Yields, run_query] at recounted
      exact (Prod.mk.inj recounted).2.symm
    cases ran
    exact ⟨before, removed, copied, integers, doubles, matrices, after, d₁, d₂, d₃, d₄, counted,
      folded, dropped, first, second, third, recounted⟩
  · rintro ⟨before, removed, copied, integers, doubles, matrices, after, d₁, d₂, d₃, d₄, counted,
      folded, dropped, first, second, third, recounted⟩
    exact ⟨_, optimize_of_passes counted folded dropped first second third recounted⟩

theorem exists_query {α : Type} {f : Program → Table → Outcome α}
    (h : (f d.program d.workspace.table).toOption.isSome) : ∃ a, Yields (query f) d a d := by
  obtain ⟨a, ha⟩ := Option.isSome_iff_exists.mp h
  exact ⟨a, yields_query ha⟩

theorem covered_of_count {n : Counts} (counted : Yields (query Program.countTemporaries) d n d') :
    ∀ i ∈ d.program.instructions, i.Covered d.workspace.table := by
  rw [Yields, run_query] at counted
  have answer := Outcome.toOption_eq_some.mpr (Prod.mk.inj counted).1
  rw [Program.countTemporaries, Outcome.toOption_bind, Option.bind_eq_some_iff] at answer
  obtain ⟨hs, listed, -⟩ := answer
  exact (Program.temporaries_spec listed).1

theorem fails_optimize {folder : Folder}
    (uncovered : ¬∀ i ∈ d.program.instructions, i.Covered d.workspace.table) :
    Fails (optimize policy folder) d d := by
  have got : Yields (get : Drafting Draft) d d d := rfl
  have unlisted : (d.program.countTemporaries d.workspace.table).toOption = none := by
    rw [Program.countTemporaries, Outcome.toOption_bind]
    cases h : (d.program.temporaries d.workspace.table).toOption with
    | none => rfl
    | some hs => exact absurd (Program.temporaries_spec h).1 uncovered
  have uncounted : Fails (query Program.countTemporaries) d d := fails_outcome unlisted d
  exact got.bind_fails uncounted.bind

/-- Temporaries of one kind after the other share storage. -/
theorem shared_of_share (sound : d₂.Sound) {n₁ n₂ n₃ : Nat}
    (first : Yields (shareTemporaries .integer) d₂ n₁ d₃)
    (second : Yields (shareTemporaries .double) d₃ n₂ d₄)
    (third : Yields (shareTemporaries .matrix) d₄ n₃ d') : Draft.Shared d₂ d' := by
  obtain ⟨f₁, shared₁⟩ := of_shareTemporaries (by simp) sound first
  have sound₃ := shared₁.sound sound
  obtain ⟨f₂, shared₂⟩ := of_shareTemporaries (by simp) sound₃ second
  obtain ⟨f₃, shared₃⟩ := of_shareTemporaries (by simp) (shared₂.sound sound₃) third
  exact .step f₁ shared₁ (.step f₂ shared₂ (.step f₃ shared₃ (.refl d')))

/-- After folding, the other passes succeed and keep the meaning of the draft. -/
theorem yields_optimize {folder : Folder} {body : List Instruction} {last : Instruction}
    {target : Handle} (a : d₁.Assigning body last target)
    (named : ∀ a, d₁.workspace.table.appearance? target = some a → a.isLiteral = false) {n : Nat}
    (folded : Yields (foldConstants policy folder) d n d₁)
    (covered : ∀ i ∈ d.program.instructions, i.Covered d.workspace.table) :
    ∃ report d', Yields (optimize policy folder) d report d' ∧
      Draft.Agrees d₁.IsUser d₁ d' ∧ d'.Sound ∧ d'.Closed ∧ Draft.Derives d₁ d' ∧
      ∀ h, d'.IsUser h ↔ d₁.IsUser h := by
  obtain ⟨before, counted⟩ := exists_query (Program.isSome_countTemporaries covered)
  obtain ⟨b, d₂, dropped, agrees, sound₂, closed, derives, user⟩ := a.drop named
  obtain ⟨n₁, d₃, f₁, first, shared₁⟩ := shareTemporaries_spec sound₂ .integer (by simp)
  have sound₃ := shared₁.sound sound₂
  obtain ⟨n₂, d₄, f₂, second, shared₂⟩ := shareTemporaries_spec sound₃ .double (by simp)
  have sound₄ := shared₂.sound sound₃
  obtain ⟨n₃, d', f₃, third, shared₃⟩ := shareTemporaries_spec sound₄ .matrix (by simp)
  have shared : Draft.Shared d₂ d' := .step f₁ shared₁ (.step f₂ shared₂ (.step f₃ shared₃ (.refl d')))
  have sound := shared.sound sound₂
  obtain ⟨after, recounted⟩ := exists_query (Program.isSome_countTemporaries sound.covered)
  obtain ⟨report, ran⟩ := optimize_iff.mpr ⟨before, n, b, n₁, n₂, n₃, after, d₁, d₂, d₃, d₄, counted,
    folded, dropped, first, second, third, recounted⟩
  refine ⟨report, d', ran, ?_, sound, shared.closed closed, derives.trans shared.derives,
    fun h => (shared.isUser h).trans (user h)⟩
  exact agrees.trans ((shared.agrees sound₂).mono fun h => (user h).mpr)

end Drafting

namespace Draft.SingleEquation

variable {d : Draft} {body : List Instruction} {last : Instruction} {target : Handle}
  (single : d.SingleEquation body last target)
  (covered : ∀ i ∈ d.program.instructions, i.Covered d.workspace.table)
  (steps : ∀ i ∈ d.program.instructions, ∀ k ∈ i.steps d.workspace.table, d.IsUser k)
  (named : ∀ a, d.workspace.table.appearance? target = some a → a.isLiteral = false)

include single covered steps

theorem foldable : Foldable d.workspace.table d.IsUser d.program.instructions :=
  (single.sound covered).foldable (fun _ => single.count_outputs_le) steps

include named

/-- The optimizer keeps the meaning of an equation, or fails with every run of it. -/
theorem optimize (policy : Policy) :
    (∃ report d', Yields (Drafting.optimize policy Machine.fold) d report d' ∧
      Agrees d.IsUser d d' ∧ d'.Sound ∧ d'.Closed ∧ Derives (d.folded policy) d' ∧
      ∀ h, d.IsUser h → d'.IsUser h) ∨
    (∃ d', Fails (Drafting.optimize policy Machine.fold) d d') ∧
      ∀ m, m.store.WellKinded d.workspace.table → (d.advance m).2 ≠ [] := by
  have foldable := single.foldable covered steps
  have reduces := reduces_folded policy covered foldable.typed
  have ran := Drafting.run_foldConstants policy Machine.fold d
  cases failure : (Folding.run policy Machine.fold d.workspace d.program.instructions).failure with
  | some e =>
      rw [failure] at ran
      obtain ⟨before, counted⟩ := Drafting.exists_query (Program.isSome_countTemporaries covered)
      have got : Yields (get : Drafting Draft) d d d := rfl
      have failed : Fails (Drafting.foldConstants policy Machine.fold) d (d.folded policy) := ⟨e, ran⟩
      exact .inr ⟨⟨_, got.bind_fails (counted.bind_fails failed.bind)⟩,
        fun m kinded => Folding.advance_of_failure covered foldable kinded failure⟩
  | none =>
      rw [failure] at ran
      obtain ⟨body', -, assigning⟩ := (single.assigning covered).of_shortens reduces
      have same := Table.appearance?_congr (reduces.get? (.inl single.user))
      obtain ⟨report, d', optimized, agrees, sound, closed, derives, user⟩ :=
        Drafting.yields_optimize assigning (fun a ha => named a (same ▸ ha)) ran covered
      have before (h : Handle) (hu : d.IsUser h) : (d.folded policy).IsUser h :=
        fun temporary => hu (reduces.isTemporary temporary)
      refine .inl ⟨report, d', optimized, ?_, sound, closed, derives, fun h hu => ?_⟩
      · exact (agrees_of_reduces reduces foldable).trans (agrees.mono before)
      · exact (user h).mpr (before h hu)

omit steps covered named

/-- What the passes leave of an equation, whoever folds: temporaries share storage in the folded
draft, with its final copy or without it. -/
theorem passes_of_optimize {policy : Policy} {folder : Folder} {report : Report} {d' : Draft}
    (ran : Yields (Drafting.optimize policy folder) d report d') :
    ∃ body', Shortens (Folding.Folds policy folder) d.workspace.table body body'
        (d.foldedBy policy folder).workspace.table ∧
      (d.foldedBy policy folder).Assigning body' last target ∧
      (Shared (d.foldedBy policy folder) d' ∨
        ∃ source, (d.foldedBy policy folder).program.EndsInCopy
            (d.foldedBy policy folder).workspace.table body' last source target ∧
          Shared ((d.foldedBy policy folder).dropTrailingCopy source target) d') := by
  obtain ⟨_, _, _, _, _, _, _, d₁, d₂, d₃, d₄, counted, folded, dropped, first, second, third, -⟩ :=
    Drafting.optimize_iff.mp ⟨report, ran⟩
  have covered := Drafting.covered_of_count counted
  obtain rfl : d.foldedBy policy folder = d₁ := by
    rw [Yields, Drafting.run_foldConstants] at folded
    exact (Prod.mk.inj folded).2
  have shortens := Folding.shortens_run policy folder d.workspace d.program.instructions covered
    single.built.formed.typed
  obtain ⟨body', shorter, assigning⟩ : ∃ body', Shortens (Folding.Folds policy folder)
        d.workspace.table body body' (d.foldedBy policy folder).workspace.table ∧
      (d.foldedBy policy folder).Assigning body' last target :=
    (single.assigning covered).of_shortens shortens
  refine ⟨body', shorter, assigning, ?_⟩
  obtain ⟨body'', last', source, target', ends, rfl⟩ | ⟨rfl, -⟩ := Drafting.of_dropTrailingCopy dropped
  · obtain ⟨rfl, same⟩ := List.append_inj' (ends.split.symm.trans assigning.split) rfl
    obtain rfl : last' = last := by simpa using same
    obtain rfl : target' = target := Option.some.inj (ends.output.symm.trans single.output)
    exact .inr ⟨source, ends, Drafting.shared_of_share (assigning.sound_drop ends) first second third⟩
  · exact .inl (Drafting.shared_of_share assigning.sound first second third)

/-- What the optimizer leaves of an equation is a sound draft, with the texts of the folded one. -/
theorem sound_of_optimize {policy : Policy} {folder : Folder} {report : Report} {d' : Draft}
    (ran : Yields (Drafting.optimize policy folder) d report d') :
    ∃ body', Shortens (Folding.Folds policy folder) d.workspace.table body body'
        (d.foldedBy policy folder).workspace.table ∧
      d'.Sound ∧ SameBut (d.foldedBy policy folder) d' := by
  obtain ⟨body', shorter, assigning, shared | ⟨source, ends, shared⟩⟩ := single.passes_of_optimize ran
  · exact ⟨body', shorter, shared.sound assigning.sound, shared.sameBut⟩
  · have renamed := renamedBy_drop (assigning.copies_of_endsInCopy ends)
    exact ⟨body', shorter, shared.sound (assigning.sound_drop ends),
      renamed.sameBut.trans shared.sameBut⟩

end Draft.SingleEquation
end MatrixCode
