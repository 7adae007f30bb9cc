import MatrixCode.Proofs.Execution

/-!
Executions that fail. A run that fails has not carried out its last instruction, so a variable
that only the last instruction writes keeps its value. Without the optimizer that is so for all
variables of the user. With it, the target of the equation is written where the source of the
final copy was; the instructions after that one can still fail.
-/

namespace MatrixCode

/-- A variable of the user that is no literal is read by the instructions that are kept only. -/
theorem Reduces.notMem_sources {t t' : Table} {is is' : List Instruction} (r : Reduces t is is' t')
    {h : Handle} (user : ¬t.IsTemporary h)
    (named : ∀ a, t.appearance? h = some a → a.isLiteral = false)
    (unread : ∀ i ∈ is', h ∉ i.sources t') : ∀ i ∈ is, h ∉ i.sources t := by
  induction r with
  | nil t => exact unread
  | keep i rest ih =>
      obtain ⟨head, tail⟩ := List.forall_mem_cons.mp unread
      rw [List.forall_mem_cons]
      exact ⟨by rwa [← Instruction.sources_congr rest.content?], ih user named tail⟩
  | @fold t t' is is' i o e computes text rest ih =>
      obtain ⟨x, amounts, literal⟩ := text
      have other : h ≠ o := by
        rintro rfl
        exact user amounts.temporary
      have entry : (t.modify o (·.foldInto e.text e.precedence)).get? h = t.get? h := by
        rw [Table.get?_modify, if_neg other]
      rw [List.forall_mem_cons]
      constructor
      · rw [Instruction.Amounts.sources_eq amounts.range amounts.blocks]
        intro read
        obtain ⟨a, ha, isLiteral, -⟩ := amounts.literal h read
        rw [named a ha] at isLiteral
        cases isLiteral
      · intro j hj
        rw [← Instruction.sources_congr
          fun k => t.content?_modify_foldInto o k e.text e.precedence]
        refine ih ?_ ?_ unread j hj
        · rwa [Table.IsTemporary, entry]
        · rwa [Table.appearance?_congr entry]

/-- What is still a temporary in the end is written by an instruction that was kept. -/
theorem Reduces.mem_outputs {t t' : Table} {is is' : List Instruction} (r : Reduces t is is' t')
    {o : Handle} (written : o ∈ Instruction.outputs is) (temporary : t'.IsTemporary o) :
    o ∈ Instruction.outputs is' := by
  induction r with
  | nil t => exact written
  | keep i rest ih =>
      rw [Instruction.outputs_cons, List.mem_append] at written ⊢
      exact written.imp_right fun later => ih later temporary
  | @fold t t' is is' i o' e computes text rest ih =>
      obtain ⟨x, amounts, literal⟩ := text
      rw [Instruction.outputs_cons, List.mem_append, amounts.output] at written
      refine ih (written.resolve_left fun same => ?_) temporary
      obtain rfl : o = o' := by simpa using same
      exact t.not_isTemporary_foldInto o e.text e.precedence (rest.isTemporary temporary)

namespace Draft

/-- What a run of the draft has written when it ends. -/
def written (d : Draft) (m : Machine) : List Handle :=
  Instruction.outputs
    (d.program.instructions.take (d.program.instructions.length - (d.advance m).2.length))

theorem written_eq {d : Draft} {m : Machine} {done left : List Instruction}
    (split : d.program.instructions = done ++ left) (stopped : (d.advance m).2 = left) :
    d.written m = Instruction.outputs done := by
  rw [written, stopped, split, List.length_append, Nat.add_sub_cancel, List.take_left]

theorem exists_done (d : Draft) (m : Machine) :
    ∃ done, d.program.instructions = done ++ (d.advance m).2 ∧ d.written m = Instruction.outputs done ∧
      Machine.advance d.workspace.table done m = ((d.advance m).1, []) := by
  obtain ⟨done, split, ran⟩ := Machine.advance_done d.workspace.table d.program.instructions m
  exact ⟨done, split, written_eq split rfl, ran⟩

theorem outputs_subset_written {d : Draft} {m m' : Machine} {done rest : List Instruction}
    (split : d.program.instructions = done ++ rest)
    (ran : Machine.advance d.workspace.table done m = (m', [])) :
    Instruction.outputs done ⊆ d.written m := by
  obtain ⟨more, whole, -⟩ := Machine.advance_done d.workspace.table rest m'
  have stopped : (d.advance m).2 = (Machine.advance d.workspace.table rest m').2 := by
    rw [Draft.advance, split, Machine.advance_append ran]
  rw [whole, ← List.append_assoc] at split
  rw [written_eq split stopped, Instruction.outputs_append]
  exact List.subset_append_left _ _

theorem RenamedBy.written {f : Handle → Handle} {d d' : Draft} (renamed : d.RenamedBy f d')
    {m : Machine} (left : (d'.advance m).2 = (d.advance m).2.map (.rename f)) :
    d'.written m = (d.written m).map f := by
  rw [Draft.written, Draft.written, left, renamed.instructions, List.length_map, List.length_map,
    ← List.map_take, Instruction.outputs_map_rename]

/-- Sharing writes the variables of the user where they were written before. -/
theorem SharedBy.notMem_written {f : Handle → Handle} {d d' : Draft} (s : d.SharedBy f d')
    (sound : d.Sound) {h : Handle} (user : d.IsUser h) {m : Machine} (unwritten : h ∉ d.written m) :
    h ∉ d'.written m := by
  rw [s.renamed.written (s.renamed.tracks s.merges s.fixed sound s.clear m).1]
  intro again
  obtain ⟨o, ho, rfl⟩ := List.mem_map.mp again
  rw [s.fixed o (s.within o user)] at unwritten
  exact unwritten ho

/-- Without the final copy the target is written where the source was. -/
theorem notMem_written_drop {d : Draft} {body : List Instruction} {last : Instruction}
    {source target : Handle} (split : d.program.instructions = body ++ [last])
    (copies : last.Copies d.workspace.table source target)
    (stands : StandsIn d.workspace.table body source target)
    (apart : target ∉ Instruction.outputs body) {m : Machine} (unwritten : source ∉ d.written m) :
    target ∉ (d.dropTrailingCopy source target).written m := by
  obtain ⟨done, whole, ran⟩ := Machine.advance_done d.workspace.table body m
  have left := (tracks_dropTrailingCopy split copies stands m).1
  generalize stopped : (Machine.advance d.workspace.table body m).2 = rest at whole left
  have instructions : (d.dropTrailingCopy source target).program.instructions =
      done.map (.rename (Handle.replace source target)) ++
        rest.map (.rename (Handle.replace source target)) := by
    change d.program.instructions.dropLast.map _ = _
    rw [split, List.dropLast_concat, whole, List.map_append]
  rw [written_eq instructions left, Instruction.outputs_map_rename]
  intro again
  obtain ⟨o, ho, same⟩ := List.mem_map.mp again
  unfold Handle.replace at same
  split at same
  · next isSource =>
      subst isSource
      rw [whole, List.append_assoc] at split
      exact unwritten (outputs_subset_written split ran ho)
  · subst same
    rw [whole, Instruction.outputs_append] at apart
    exact apart (List.mem_append_left _ ho)

/-- Of the variables in `p` the draft writes the target only, and none of them is a temporary. -/
structure Spares (p : Handle → Prop) (target : Handle) (d : Draft) : Prop where
  temporary : ∀ h, d.workspace.table.IsTemporary h → ¬p h
  outputs : ∀ w ∈ Instruction.outputs d.program.instructions, p w → w = target

/-- No instruction but the last writes the target. -/
def WritesLast (target : Handle) (d : Draft) : Prop :=
  target ∉ Instruction.outputs d.program.instructions.dropLast

section Spares

variable {p : Handle → Prop} {d d' : Draft} {source target new : Handle}

theorem outputs_replace (d : Draft) (source new : Handle) :
    Instruction.outputs (d.replace source new).program.instructions =
      (Instruction.outputs d.program.instructions).map (Handle.replace source new) :=
  Instruction.outputs_map_rename _ _

theorem Spares.replace (spares : d.Spares p target) (source new : Handle)
    (hn : p new → new = target) : (d.replace source new).Spares p target := by
  constructor
  · intro h temporary
    exact spares.temporary h ((d.isTemporary_replace source new h).mp temporary)
  · intro w hw hp
    rw [outputs_replace] at hw
    obtain ⟨o, ho, rfl⟩ := List.mem_map.mp hw
    unfold Handle.replace at hp ⊢
    split at hp
    · next same =>
        rw [if_pos same]
        exact hn hp
    · next other =>
        rw [if_neg other]
        exact spares.outputs o ho hp

theorem Spares.drop (spares : d.Spares p target) (source : Handle) :
    (d.dropTrailingCopy source target).Spares p target := by
  have shortened : d.withoutLast.Spares p target := by
    refine ⟨spares.temporary, fun w hw => spares.outputs w ?_⟩
    exact ((List.dropLast_sublist _).filterMap _).subset hw
  have replaced := shortened.replace source target fun _ => rfl
  exact ⟨replaced.temporary, replaced.outputs⟩

theorem WritesLast.replace (last : d.WritesLast target) (source : Handle) (hn : new ≠ target) :
    (d.replace source new).WritesLast target := by
  intro written
  have instructions : (d.replace source new).program.instructions.dropLast =
      d.program.instructions.dropLast.map (.rename (Handle.replace source new)) :=
    (List.map_dropLast ..).symm
  rw [instructions, Instruction.outputs_map_rename] at written
  obtain ⟨o, ho, same⟩ := List.mem_map.mp written
  unfold Handle.replace at same
  split at same
  · exact hn same
  · exact last (same ▸ ho)

theorem Spares.replaceAll (spares : d.Spares p target) (user : p target)
    {plan : List (Handle × Handle)} (apart : ∀ pair ∈ plan, ¬p pair.2) :
    (plan.foldl (fun d (later, earlier) => d.replace later earlier) d).Spares p target ∧
      (d.WritesLast target →
        (plan.foldl (fun d (later, earlier) => d.replace later earlier) d).WritesLast target) := by
  induction plan generalizing d with
  | nil => exact ⟨spares, id⟩
  | cons pair plan ih =>
      obtain ⟨head, tail⟩ := List.forall_mem_cons.mp apart
      have other : pair.2 ≠ target := fun same => head (same ▸ user)
      obtain ⟨spared, last⟩ := ih (spares.replace pair.1 pair.2 fun hp => absurd hp head) tail
      exact ⟨spared, fun first => last (first.replace pair.1 other)⟩

/-- Sharing writes temporaries in the place of temporaries. -/
theorem Spares.share (spares : d.Spares p target) (user : p target) {kind : Kind} {n : Nat}
    (ran : Yields (Drafting.shareTemporaries kind) d n d') :
    d'.Spares p target ∧ (d.WritesLast target → d'.WritesLast target) := by
  obtain ⟨u, d₁, asked, ran⟩ := ran.of_bind
  rw [Yields, Drafting.run_query] at asked
  obtain ⟨answer, rfl⟩ := Prod.mk.inj asked
  cases ran
  have desc := Usage.describes_of_ofProgram (Outcome.toOption_eq_some.mpr answer)
  refine spares.replaceAll user fun pair hp => ?_
  obtain ⟨x, hx, same⟩ := List.mem_map.mp (Sharing.mem_of_mem_plan hp).2
  obtain ⟨-, v, hv, temporary, -⟩ := desc.of_mem_intervals hx
  rw [← same]
  exact spares.temporary x.handle ⟨v, hv, temporary⟩

end Spares

/-- What keeps the target of an equation safe from a run that fails: the final copy is not dropped,
or its source is the output of the instruction before it, or the run stops before the source is
written. -/
inductive KeepsTarget (d : Draft) (body : List Instruction) (last : Instruction) (target : Handle)
    (m : Machine) : Prop where
  | undropped (named : ∀ v, d.workspace.table.get? target = some v → v.isLiteral = false)
      (stays : ∀ source, ¬d.program.EndsInCopy d.workspace.table body last source target)
  | adjacent (first : List Instruction) (i : Instruction) (source : Handle)
      (split : body = first ++ [i]) (output : i.output = some source)
      (input : last.inputs.head? = some source)
  | early (named : ∀ v, d.workspace.table.get? target = some v → v.isLiteral = false)
      (steps : ∀ i ∈ d.program.instructions, ∀ k ∈ i.steps d.workspace.table, d.IsUser k)
      (stops : ∀ source, d.program.EndsInCopy d.workspace.table body last source target →
        source ∉ d.written m)

namespace SingleEquation

variable {d d' : Draft} {body : List Instruction} {last : Instruction} {target : Handle}
  (single : d.SingleEquation body last target)

include single

theorem spares : d.Spares d.IsUser target := by
  refine ⟨fun h temporary user => user temporary, fun w hw user => ?_⟩
  rw [single.split, Instruction.outputs_append, List.mem_append] at hw
  rcases hw with before | final
  · exact absurd (single.isTemporary_of_mem_outputs before) user
  · simpa [single.output] using final

theorem writesLast : d.WritesLast target := by
  rw [WritesLast, single.split, List.dropLast_concat]
  exact fun written => single.user (single.isTemporary_of_mem_outputs written)

/-- What is dropped after folding is the final copy of the equation. -/
theorem endsInCopy_of_reduces {t' : Table} {body' : List Instruction} {p : Program} {source : Handle}
    (reduces : Reduces d.workspace.table body body' t')
    (named : ∀ v, d.workspace.table.get? target = some v → v.isLiteral = false)
    (ends : p.EndsInCopy t' body' last source target) :
    d.program.EndsInCopy d.workspace.table body last source target := by
  have kinds (h : Handle) : t'.kind? h = d.workspace.table.kind? h := by
    rw [Table.kind?_eq_content?, Table.kind?_eq_content?, reduces.content?]
  refine ⟨single.split, ends.isPlainCopy, ends.input, ends.output,
    reduces.isTemporary ends.temporary, single.user, ?_, ?_⟩
  · rw [← kinds, ← kinds, ends.kind]
  · refine reduces.notMem_sources single.user ?_ ends.unread
    intro a ha
    obtain ⟨v, hv, rfl⟩ := Option.map_eq_some_iff.mp ha
    exact named v hv

theorem writesLast_drop {d₁ : Draft} {first body' : List Instruction} {i : Instruction}
    {source : Handle} (split : body = first ++ [i]) (written : i.output = some source)
    (reduces : Reduces d.workspace.table body body' d₁.workspace.table)
    (ends : d₁.program.EndsInCopy d₁.workspace.table body' last source target) :
    (d₁.dropTrailingCopy source target).WritesLast target := by
  subst split
  obtain ⟨first', rfl, shorter⟩ := reduces.of_concat.resolve_right fun ⟨o, output, _, gone⟩ => by
    obtain rfl := Option.some.inj (written.symm.trans output)
    exact gone ends.temporary
  have instructions : (d₁.dropTrailingCopy source target).program.instructions.dropLast =
      first'.map (.rename (Handle.replace source target)) := by
    change (d₁.program.instructions.dropLast.map _).dropLast = _
    rw [ends.split, List.dropLast_concat, List.map_append, List.map_singleton, List.dropLast_concat]
  intro again
  rw [instructions, Instruction.outputs_map_rename] at again
  obtain ⟨o, ho, same⟩ := List.mem_map.mp again
  have before : o ∈ Instruction.outputs first := (shorter.sublist.filterMap _).subset ho
  unfold Handle.replace at same
  split at same
  · next isSource =>
      subst isSource
      have nodup := single.nodup_outputs
      rw [Instruction.outputs_append] at nodup
      exact List.disjoint_of_nodup_append nodup before (by simp [written])
  · subst same
    refine single.user (single.isTemporary_of_mem_outputs ?_)
    rw [Instruction.outputs_append]
    exact List.mem_append_left _ before

/-- A temporary that is left by folding is written as late as before. -/
theorem notMem_written_folded (covered : ∀ i ∈ d.program.instructions, i.Covered d.workspace.table)
    (steps : ∀ i ∈ d.program.instructions, ∀ k ∈ i.steps d.workspace.table, d.IsUser k)
    {policy : Policy} {m : Machine} (kinded : m.store.WellKinded d.workspace.table) {o : Handle}
    (temporary : (d.folded policy).workspace.table.IsTemporary o) (unwritten : o ∉ d.written m) :
    o ∉ (d.folded policy).written m := by
  have foldable := single.foldable covered steps
  have reduces := reduces_folded policy covered foldable.typed
  obtain ⟨w, left, -⟩ := Follows.advance reduces foldable ⟨fun _ => rfl, fun _ _ => rfl⟩
    (.refl _ kinded)
  obtain ⟨done, split, written, -⟩ := d.exists_done m
  obtain ⟨done', split', written', -⟩ := (d.folded policy).exists_done m
  rw [written] at unwritten
  rw [written']
  intro again
  have shorter := reduces.sublist.filterMap Instruction.output
  have once := (shorter.count_le o).trans (single.count_outputs_le (reduces.isTemporary temporary))
  have inside : o ∈ Instruction.outputs d.program.instructions := by
    refine shorter.subset ?_
    rw [split']
    exact (List.sublist_append_left done' _).filterMap _ |>.subset again
  -- the writer is among what is left of the draft, so it is left again after folding
  rw [split, Instruction.outputs_append, List.mem_append] at inside
  have later : o ∈ Instruction.outputs ((d.folded policy).advance m).2 :=
    left.mem_outputs (inside.resolve_left unwritten) temporary
  rw [split'] at once
  change (Instruction.outputs (done' ++ _)).count o ≤ 1 at once
  rw [Instruction.outputs_append, List.count_append] at once
  have := List.count_pos_iff.mpr again
  have := List.count_pos_iff.mpr later
  omega

end SingleEquation

/-- The target is written by the last instruction, or not by the run. -/
def Safe (m : Machine) (target : Handle) (d : Draft) : Prop :=
  d.WritesLast target ∨ d.Sound ∧ target ∉ d.written m

theorem Safe.share {d d' : Draft} {m : Machine} {target : Handle} {p : Handle → Prop} {kind : Kind}
    (hk : kind ≠ .sequence) {n : Nat} (safe : d.Safe m target) (spares : d.Spares p target)
    (user : p target) (ran : Yields (Drafting.shareTemporaries kind) d n d') : d'.Safe m target := by
  rcases safe with last | ⟨sound, unwritten⟩
  · exact .inl ((spares.share user ran).2 last)
  · obtain ⟨f, shared⟩ := Drafting.of_shareTemporaries hk sound ran
    exact .inr ⟨shared.sound sound, shared.notMem_written sound
      (fun temporary => spares.temporary target temporary user) unwritten⟩

theorem SingleEquation.safe_drop {d : Draft} {body body' : List Instruction} {last : Instruction}
    {source target : Handle} (single : d.SingleEquation body last target)
    (covered : ∀ i ∈ d.program.instructions, i.Covered d.workspace.table) {policy : Policy}
    {m : Machine} (kinded : m.store.WellKinded d.workspace.table)
    (reduces : Reduces d.workspace.table d.program.instructions
      (d.folded policy).program.instructions (d.folded policy).workspace.table)
    (shorter : Reduces d.workspace.table body body' (d.folded policy).workspace.table)
    (ends : (d.folded policy).program.EndsInCopy (d.folded policy).workspace.table body' last source
      target) (keeps : d.KeepsTarget body last target m) :
    ((d.folded policy).dropTrailingCopy source target).Safe m target := by
  cases keeps with
  | undropped named stays =>
      exact absurd (single.endsInCopy_of_reduces shorter named ends) (stays source)
  | adjacent first i source' split output input =>
      obtain rfl := Option.some.inj (input.symm.trans ends.input)
      exact .inl (single.writesLast_drop split output shorter ends)
  | early named steps stops =>
      have unwritten := single.notMem_written_folded covered steps kinded ends.temporary
        (stops source (single.endsInCopy_of_reduces shorter named ends))
      have literal (a : Appearance) (ha : d.workspace.table.appearance? target = some a) :
          a.isLiteral = false := by
        obtain ⟨v, hv, rfl⟩ := Option.map_eq_some_iff.mp ha
        exact named v hv
      obtain ⟨body'', -, assigning⟩ := (single.assigning covered).of_shortens reduces
      obtain ⟨rfl, -⟩ := List.append_inj' (assigning.split.symm.trans ends.split) rfl
      have same := Table.appearance?_congr (reduces.get? (.inl single.user))
      have literal' (a : Appearance)
          (ha : (d.folded policy).workspace.table.appearance? target = some a) :
          a.isLiteral = false := literal a (same ▸ ha)
      exact .inr ⟨assigning.sound_drop ends, notMem_written_drop assigning.split
        (assigning.copies_of_endsInCopy ends) (assigning.standsIn literal' ends) assigning.apart
        unwritten⟩

/-- What the optimizer leaves of an equation. -/
theorem SingleEquation.of_optimize {d d' : Draft} {body : List Instruction} {last : Instruction}
    {target : Handle} (single : d.SingleEquation body last target) {policy : Policy} {report : Report}
    (ran : Yields (Drafting.optimize policy Machine.fold) d report d') {m : Machine}
    (kinded : m.store.WellKinded d.workspace.table) :
    d'.Spares d.IsUser target ∧ (d.KeepsTarget body last target m → d'.Safe m target) := by
  obtain ⟨_, _, _, _, _, _, _, d₁, d₂, d₃, d₄, counted, folded, dropped, first, second, third, -⟩ :=
    Drafting.optimize_iff.mp ⟨report, ran⟩
  obtain rfl := Drafting.eq_folded folded
  have covered := Drafting.covered_of_count counted
  have reduces := reduces_folded policy covered single.built.formed.typed
  have after : d₂.Spares d.IsUser target ∧ (d.KeepsTarget body last target m → d₂.Safe m target) := by
    have spares : (d.folded policy).Spares d.IsUser target := by
      constructor
      · exact fun h temporary user => user (reduces.isTemporary temporary)
      · exact fun w hw => single.spares.outputs w ((reduces.sublist.filterMap _).subset hw)
    have whole := reduces
    rw [single.split] at whole
    obtain ⟨body', split, shorter⟩ := whole.of_concat_user single.output single.user
    obtain ⟨body'', last', source, target', ends, rfl⟩ | ⟨rfl, -⟩ :=
      Drafting.of_dropTrailingCopy dropped
    · obtain ⟨rfl, same⟩ := List.append_inj' (ends.split.symm.trans split) rfl
      obtain rfl : last' = last := by simpa using same
      obtain rfl : target' = target := Option.some.inj (ends.output.symm.trans single.output)
      exact ⟨spares.drop source, single.safe_drop covered kinded reduces shorter ends⟩
    · refine ⟨spares, fun _ => .inl fun written => single.writesLast ?_⟩
      rw [split, List.dropLast_concat] at written
      rw [single.split, List.dropLast_concat]
      exact (shorter.sublist.filterMap _).subset written
  obtain ⟨spares₂, safe₂⟩ := after
  have spares₃ := (spares₂.share single.user first).1
  have spares₄ := (spares₃.share single.user second).1
  refine ⟨(spares₄.share single.user third).1, fun keeps => ?_⟩
  have safe₃ := (safe₂ keeps).share (by simp) spares₂ single.user first
  have safe₄ := safe₃.share (by simp) spares₃ single.user second
  exact safe₄.share (by simp) spares₄ single.user third

end Draft

namespace Compilation

variable {e e' : Equation} {h : Handle}

/-- A run that fails leaves the variables of the user as they were, but for those written. -/
theorem of_fails_carryOut (covered : ∀ i ∈ e.program.instructions, i.Covered e.context.table)
    (failed : Fails carryOut e e') :
    ∃ m, m.generator = e.context.machine.generator ∧
      (∀ h, e.draft.IsUser h → m.store.get? h = e.context.store.get? h) ∧
      (e.draft.advance m).2 ≠ [] ∧
      ∀ h, e.draft.IsUser h → h ∉ e.draft.written m →
        e'.context.store.get? h = e.context.store.get? h := by
  obtain ⟨m, e₁, generator, value, -, executed, outcome⟩ := carryOut_spec covered
  split at outcome
  · exact absurd failed outcome.not_fails
  · next stopped =>
      refine ⟨m, generator, value, stopped, fun h user unwritten => ?_⟩
      obtain ⟨done, -, written, same⟩ := e.draft.exists_done m
      rw [written] at unwritten
      have kept := Machine.get?_advance_of_notMem (t := e.draft.workspace.table) m unwritten
      rw [same] at kept
      rw [failed.unique outcome, executed.value h user]
      exact kept.trans (value h user)

theorem get?_of_writesLast (failed : Fails carryOut e e') (user : e.draft.IsUser h)
    (last : e.draft.WritesLast h) : e'.context.store.get? h = e.context.store.get? h := by
  by_cases covered : ∀ i ∈ e.program.instructions, i.Covered e.context.table
  case neg => rw [failed.unique (fails_carryOut covered)]
  obtain ⟨m, -, -, stopped, same⟩ := of_fails_carryOut covered failed
  obtain ⟨done, split, written, -⟩ := e.draft.exists_done m
  refine same h user fun hw => last ?_
  rw [written] at hw
  rw [split, List.dropLast_append_of_ne_nil stopped, Instruction.outputs_append]
  exact List.mem_append_left _ hw

theorem get?_of_safe (failed : Fails carryOut e e') (user : e.draft.IsUser h)
    (safe : e.draft.Safe e.context.machine h) :
    e'.context.store.get? h = e.context.store.get? h := by
  rcases safe with last | ⟨sound, unwritten⟩
  · exact get?_of_writesLast failed user last
  · obtain ⟨m, generator, value, -, same⟩ := of_fails_carryOut sound.covered failed
    refine same h user ?_
    rwa [Draft.written, (sound.advance_congr generator value).1]

/-- How execution fails. -/
theorem of_fails_execute {enabled : Bool} (failed : Fails (execute enabled) e e') :
    (enabled = false ∧ Fails carryOut e e') ∨
    (enabled = true ∧ ∃ d, Fails (Drafting.optimize .standard Machine.fold) e.draft d ∧
      e' = e.withDraft d) ∨
    (enabled = true ∧ ∃ report d,
      Yields (Drafting.optimize .standard Machine.fold) e.draft report d ∧
      Fails carryOut (e.withDraft d) e') := by
  rw [execute_eq] at failed
  have last {r : Option Report} {e₁ : Equation}
      (failed : Fails (do carryOut; return r : Compilation (Option Report)) e₁ e') :
      Fails carryOut e₁ e' := by
    refine failed.of_bind.resolve_right ?_
    rintro ⟨-, e₂, -, failure, returned⟩
    cases returned
  cases enabled with
  | false =>
      obtain ⟨failure, unfailing⟩ | ⟨r, e₁, plain, failed⟩ := failed.of_bind
      · cases unfailing
      · cases plain
        exact .inl ⟨rfl, last failed⟩
  | true =>
      right
      obtain failed | ⟨r, e₁, optimized, failed⟩ := failed.of_bind
      · exact .inl ⟨rfl, of_fails_optimizeWhen failed⟩
      · obtain ⟨report, d, ran, rfl⟩ := of_yields_optimizeWhen optimized
        exact .inr ⟨rfl, report, d, ran, last failed⟩

/-- An execution that fails leaves the variables of the user as they were. With the optimizer, the
target of the equation is safe only as far as the optimizer lets it be written late. -/
theorem execute_failed {enabled : Bool} {body : List Instruction} {last : Instruction}
    {target : Handle} (single : e.draft.SingleEquation body last target)
    (kinded : e.context.store.WellKinded e.context.table) (failed : Fails (execute enabled) e e')
    (user : e.draft.IsUser h)
    (keeps : enabled = true → h = target →
      e.draft.KeepsTarget body last target e.context.machine) :
    e'.context.store.get? h = e.context.store.get? h := by
  obtain ⟨-, failed⟩ | ⟨-, d, -, rfl⟩ | ⟨rfl, report, d, optimized, failed⟩ := of_fails_execute failed
  · refine get?_of_writesLast failed user fun written => ?_
    obtain rfl := single.spares.outputs h (((List.dropLast_sublist _).filterMap _).subset written) user
    exact single.writesLast written
  · rfl
  · obtain ⟨spares, safe⟩ := single.of_optimize optimized kinded
    have user' : (e.withDraft d).draft.IsUser h := fun temporary => spares.temporary h temporary user
    by_cases same : h = target
    · subst same
      exact get?_of_safe (e := e.withDraft d) failed user' (safe (keeps rfl rfl))
    · refine get?_of_writesLast (e := e.withDraft d) failed user' fun written => same ?_
      exact spares.outputs h (((List.dropLast_sublist _).filterMap _).subset written) user

end Compilation

/-- An equation in the integers `n` and `x` that cannot be executed: `n` is divided by zero. What is
assigned to `x` is the quotient, or `-n`, which is computed before. -/
def Drafting.division (quotient : Bool) : Drafting Unit := do
  let negated ← apply (Request.unary .negate ⟨2⟩).perform
  let divided ← apply (Request.binary .divide ⟨2⟩ ⟨0⟩).perform
  assign (if quotient then divided else negated) ⟨3⟩

theorem Draft.singleEquation_division (quotient : Bool) :
    let d := ofEquation (.division quotient) (.ofIntegers ["n", "x"])
    ∃ last, d.SingleEquation d.program.instructions.dropLast last ⟨3⟩ ∧
      d.program.instructions.getLast? = some last := by
  intro d
  have ran : Yields (Drafting.division quotient) ⟨.ofIntegers ["n", "x"], .empty⟩ () d := by
    cases quotient
    all_goals exact yields_of_toOption (by decide +kernel)
  obtain ⟨_, _, first, ran⟩ := ran.of_bind
  obtain ⟨_, _, second, assigned⟩ := ran.of_bind
  have built : d.Built := .assign (.request (.request (.start _) _ _ first) _ _ second) _ _ assigned
  have nonempty : d.program.instructions ≠ [] := by
    cases quotient
    all_goals decide +kernel
  have final := List.getLast?_eq_some_getLast nonempty
  have copy : ∀ i ∈ d.program.instructions.getLast?, i.primitive = .copy ∧ i.output = some ⟨3⟩ := by
    cases quotient
    all_goals decide +kernel
  obtain ⟨assigns, output⟩ := copy _ final
  refine ⟨_, ⟨built, (List.dropLast_append_getLast nonempty).symm, ?_, assigns, output, ?_,
    forall_of_take ?_⟩, final⟩
  all_goals
    cases quotient
    all_goals decide +kernel

theorem Compilation.execute_failed_division :
    let e := Equation.ofDraft (.ofEquation (.division true) (.ofIntegers ["n", "x"]))
      ((Store.empty.set ⟨2⟩ (.integer 1)).set ⟨3⟩ (.integer 42))
    ∃ e', Fails (execute true) e e' ∧ e'.context.store.get? ⟨3⟩ = e.context.store.get? ⟨3⟩ := by
  intro e
  obtain ⟨last, single, final⟩ := Draft.singleEquation_division true
  have failed : Fails (execute true) e _ := fails_of_toOption (by decide +kernel)
  have input : ∀ i ∈ e.draft.program.instructions.getLast?, i.inputs.head? = some ⟨5⟩ := by
    decide +kernel
  have kinded := ((Store.wellKinded_empty e.context.table).set (h := ⟨2⟩) (x := .integer 1)
    (by decide +kernel)).set (h := ⟨3⟩) (x := .integer 42) (by decide +kernel)
  refine ⟨_, failed, execute_failed (e := e) single kinded failed single.user fun _ _ => ?_⟩
  exact .adjacent _ _ ⟨5⟩ (List.dropLast_append_getLast (by decide +kernel)).symm
    (by decide +kernel) (input last final)

/-- The target is written before the instruction that fails. -/
theorem Compilation.execute_division :
    let e := Equation.ofDraft (.ofEquation (.division false) (.ofIntegers ["n", "x"]))
      ((Store.empty.set ⟨2⟩ (.integer 1)).set ⟨3⟩ (.integer 42))
    (∃ body last, e.draft.SingleEquation body last ⟨3⟩) ∧
      e.context.store.WellKinded e.context.table ∧
      ∃ e', Fails (execute true) e e' ∧
        (e.context.store.get? ⟨3⟩).bind Value.integer? = some 42 ∧
        (e'.context.store.get? ⟨3⟩).bind Value.integer? = some (-1) := by
  intro e
  obtain ⟨last, single, -⟩ := Draft.singleEquation_division false
  have kinded := ((Store.wellKinded_empty e.context.table).set (h := ⟨2⟩) (x := .integer 1)
    (by decide +kernel)).set (h := ⟨3⟩) (x := .integer 42) (by decide +kernel)
  refine ⟨⟨_, last, single⟩, kinded, _, fails_of_toOption ?_, ?_, ?_⟩
  all_goals decide +kernel

end MatrixCode
