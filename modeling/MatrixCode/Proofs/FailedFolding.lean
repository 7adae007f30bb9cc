import MatrixCode.Proofs.Accounting
import MatrixCode.Proofs.SymbolicOptimization

/-!
Folding that fails midway. A folder that fails, declines or gives the value of the instruction it is
asked about may fail after any number of instructions. What it leaves is a program that still can be
used: the instructions that were folded away are missing, their outputs are literals with their
values, and a run ends as a run of the whole program does.
-/

namespace MatrixCode

theorem SameReading.trans {t t' t'' : Table} {s s' s'' : Store} {h h' h'' : Handle}
    (first : SameReading t t' s s' h h') (second : SameReading t' t'' s' s'' h' h'') :
    SameReading t t'' s s'' h h'' :=
  ⟨second.kind.trans first.kind, second.integer.trans first.integer, second.double.trans first.double,
    second.matrix.trans first.matrix⟩

section Liveness

variable {t : Table} {out : Handle → Prop} {is : List Instruction}

/-- Whether a variable that is written is live before does not depend on what is needed afterwards. -/
theorem Live.iff_of_mem_outputs {h : Handle} (written : h ∈ Instruction.outputs is)
    (out out' : Handle → Prop) : Live t out is h ↔ Live t out' is h := by
  induction is with
  | nil => cases written
  | cons i is ih =>
      by_cases here : i.output = some h
      · simp [Live, here]
      · have later : h ∈ Instruction.outputs is := by simpa [here] using written
        simp [Live, ih later]

theorem Foldable.needing (f : Foldable t out is) (out' : Handle → Prop) : Foldable t out' is where
  fresh o ho temporary live :=
    f.fresh o ho temporary ((Live.iff_of_mem_outputs ho out out').mpr live)
  once := f.once
  plain := f.plain
  typed := f.typed
  steps := f.steps

theorem Foldable.right (done : List Instruction) (f : Foldable t out (done ++ is)) :
    Foldable t out is := by
  induction done with
  | nil => exact f
  | cons i done ih => exact ih f.tail

end Liveness

namespace Instruction

variable {t w : Table} {i : Instruction} {o : Handle} {m m₀ : Machine} {x : Value}

/-- A scalar has the same value on two machines that agree on the operands. -/
theorem Computes.toOption_evaluate (c : i.Computes w o)
    (reads : ∀ k ∈ i.inputs, SameReading t w m.store m₀.store k k) (target : w.kind? o = t.kind? o)
    (value : (i.evaluate w m₀).toOption = some ⟨o, x, m₀.generator⟩) :
    (i.evaluate t m).toOption = some ⟨o, x, m.generator⟩ := by
  obtain ⟨kind, hk, scalar⟩ := c.scalar
  have targets (o' : Handle) (written : i.output = some o') : w.kind? o' = t.kind? o' := by
    obtain rfl := Option.some.inj (c.output.symm.trans written)
    exact target
  have moved := toOption_evaluate_of_reads c.range c.blocks reads targets m₀.generator
  have generator := toOption_evaluate_generator c.output (target ▸ hk) scalar c.range c.primitive
    m.store m₀.generator m.generator
  rw [moved, show (i.evaluate w ⟨m₀.store, m₀.generator⟩).toOption = _ from value] at generator
  exact generator

/-- A scalar is all that an instruction computes. -/
theorem Computes.toOption_evaluate_of_value (c : i.Computes t o)
    (value : (i.evaluate t m).toOption.map Effect.value = some x) :
    (i.evaluate t m).toOption = some ⟨o, x, m.generator⟩ := by
  obtain ⟨kind, hk, scalar⟩ := c.scalar
  obtain ⟨effect, evaluated, rfl⟩ := Option.map_eq_some_iff.mp value
  have target := Option.some.inj (c.output.symm.trans (output_of_evaluate evaluated))
  have generator := toOption_evaluate_generator c.output hk scalar c.range c.primitive
    m.store m.generator m.generator
  rw [show (i.evaluate t ⟨m.store, m.generator⟩).toOption = _ from evaluated, Option.map_some] at generator
  rw [evaluated, generator, ← target]

/-- The instruction reads no temporaries, and the text is that of its value on the machine. -/
structure Settles (m : Machine) (t : Table) (i : Instruction) (o : Handle) (e : ScalarText) : Prop where
  user : ∀ k ∈ i.inputs, ¬t.IsTemporary k
  value : ∃ x, (i.evaluate t m).toOption = some ⟨o, x, m.generator⟩ ∧ e.Denotes x

end Instruction

open Instruction (Settles)

section Simulation

variable {t w t' : Table} {out : Handle → Prop} {is is' : List Instruction} {m₀ m m' : Machine}

/-- A run of what is left when instructions are left out that had their values at the start. As long
as only temporaries are written, their operands are unchanged where they stood. -/
theorem Follows.advance_settles (r : Shortens (Settles m₀) w is is' t') (foldable : Foldable t out is)
    (folded : FoldedFrom t w is) (made : ∀ o ∈ Instruction.outputs is, t.IsTemporary o)
    (still : ∀ h, ¬w.IsTemporary h ∨ h ∈ Instruction.outputs is → m'.store.get? h = m₀.store.get? h)
    (follows : Follows t w (Live t out is) m m') :
    ((Machine.advance t is m).2 = [] ↔ (Machine.advance t' is' m').2 = []) ∧
      ((Machine.advance t is m).2 = [] →
        Follows t t' out (Machine.advance t is m).1 (Machine.advance t' is' m').1) := by
  induction r generalizing m m' with
  | nil w => exact ⟨by simp [Machine.advance], fun _ => follows⟩
  | @keep w t' is is' i r ih =>
      obtain ⟨same, next⟩ := follows.keep r foldable folded
      simp only [Machine.advance, same]
      cases he : (i.evaluate t m).toOption with
      | none => simp
      | some e =>
          have output := Instruction.output_of_evaluate he
          have temporary := made e.target (by simp [output])
          refine ih foldable.tail folded.tail (fun o ho => made o (by simp [ho])) (fun h hh => ?_)
            (next e he)
          -- What is written is a temporary still, so no operand of what is folded later is touched.
          have other : h ≠ e.target := by
            rintro rfl
            rcases hh with user | later
            · rw [Table.IsTemporary, folded.kept _ (.inr (by simp [output]))] at user
              exact user temporary
            · exact foldable.notMem_outputs output temporary later
          rw [Machine.get?_apply, if_neg other]
          exact still h (hh.imp_right fun later => by simp [later])
  | @fold w t' is is' i o e computes settles r ih =>
      obtain ⟨x, value, denotes⟩ := settles.value
      -- The operands are read here as at the start, where the instruction has its value.
      have reads (k : Handle) (hk : k ∈ i.inputs) : SameReading t w m.store m₀.store k k :=
        (follows.input hk).sameReading.trans (.of_bound rfl (still k (.inl (settles.user k hk))).symm)
      have evaluated := computes.toOption_evaluate reads (folded.kind_output computes.output) value
      obtain ⟨folded', follows'⟩ := follows.fold computes denotes evaluated foldable folded
      simp only [Machine.advance, evaluated]
      refine ih foldable.tail folded' (fun o ho => made o (by simp [ho])) (fun h hh => still h ?_) follows'
      by_cases same : h = o
      · exact .inr (by simp [same, computes.output])
      · refine hh.imp (fun user temporary => user ?_) fun later => by simp [later]
        rwa [Table.IsTemporary, Table.get?_modify, if_neg same]

end Simulation

/-- The folder fails or declines, or it gives the text of the value that the instruction has on the
machine. It is asked in tables where temporaries may have become literals. -/
def Folder.Faithful (folder : Folder) (d : Draft) (m : Machine) : Prop :=
  ∀ t i e, FoldedFrom d.workspace.table t [] → i ∈ d.program.instructions →
    folder t i = .ok (some e) →
    ∃ x, (i.evaluate t m).toOption.map Effect.value = some x ∧ e.Denotes x

section Settling

variable {policy : Policy} {folder : Folder} {t t' : Table} {is is' : List Instruction} {i : Instruction}
  {o : Handle} {e : ScalarText} {m : Machine}

/-- What is folded on known operands has its value on the machine. -/
theorem Folding.Folds.settles (f : Folds policy folder t i o e) (computes : i.Computes t o)
    (plain : ∀ k ∈ i.inputs, ∀ v, t.get? k = some v → v.temporary = true → v.constant = false)
    (answers : ∀ e, folder t i = .ok (some e) →
      ∃ x, (i.evaluate t m).toOption.map Effect.value = some x ∧ e.Denotes x) :
    i.Settles m t o e where
  user k hk := by
    obtain ⟨v, hv, user, -⟩ := f.user hk (plain k hk)
    rintro ⟨v', hv', temporary⟩
    obtain rfl := Option.some.inj (hv.symm.trans hv')
    simp [user] at temporary
  value := by
    have expression := f.expression
    rw [Instruction.toOption_expression?_by folder fun _ => f.covered.input] at expression
    cases words : i.words? t with
    | some arguments =>
        rw [words, Option.some.injEq] at expression
        obtain ⟨n, result, rfl⟩ := Option.map_eq_some_iff.mp expression
        refine ⟨.integer n, ?_, _, rfl, rfl⟩
        rw [Instruction.toOption_evaluate_of_words computes f.typed words, result]
        rfl
    | none =>
        rw [words] at expression
        obtain ⟨x, value, denotes⟩ := answers e (Outcome.toOption_eq_some.mp expression)
        exact ⟨x, computes.toOption_evaluate_of_value value, denotes⟩

/-- What comes from a table where a temporary has become a text comes from the table before. -/
theorem FoldedFrom.before {u : Table} (temporary : t.IsTemporary o) (e : ScalarText)
    (f : FoldedFrom (t.modify o (·.foldInto e.text e.precedence)) u []) : FoldedFrom t u [] where
  content h := by rw [f.content, Table.content?_modify_foldInto]
  kept h hh := by
    have user : ¬t.IsTemporary h := hh.resolve_right (by simp)
    have same : (t.modify o (·.foldInto e.text e.precedence)).get? h = t.get? h := by
      rw [Table.get?_modify, if_neg]
      rintro rfl
      exact user temporary
    rw [f.kept h (.inl (by rwa [Table.IsTemporary, same])), same]

theorem Shortens.settles (r : Shortens (Folding.Folds policy folder) t is is' t')
    (plain : ∀ i ∈ is, ∀ k ∈ i.inputs, ∀ v, t.get? k = some v → v.temporary = true → v.constant = false)
    (answers : ∀ u i e, FoldedFrom t u [] → i ∈ is → folder u i = .ok (some e) →
      ∃ x, (i.evaluate u m).toOption.map Effect.value = some x ∧ e.Denotes x) :
    Shortens (Settles m) t is is' t' := by
  induction r with
  | nil t => exact .nil t
  | keep i r ih =>
      exact .keep i (ih (fun j hj => plain j (List.mem_cons_of_mem i hj))
        fun u j e same hj => answers u j e same (List.mem_cons_of_mem i hj))
  | @fold t t' is is' i o e computes folds r ih =>
      have head := List.mem_cons_self (a := i) (l := is)
      have answered (e : ScalarText) := answers t i e ⟨fun _ => rfl, fun _ _ => rfl⟩ head
      refine .fold computes (folds.settles computes (plain i head) answered)
        (ih (fun j hj k hk v hv temporary => ?_) fun u j e' earlier hj =>
          answers u j e' ?_ (List.mem_cons_of_mem i hj))
      · have other : k ≠ o := by
          rintro rfl
          exact t.not_isTemporary_foldInto k _ _ ⟨v, hv, temporary⟩
        rw [Table.get?_modify, if_neg other] at hv
        exact plain j (List.mem_cons_of_mem i hj) k hk v hv temporary
      · exact earlier.before computes.temporary e

/-- The output of the instruction has become the literal for the value that the instruction has on
the machine. -/
def Instruction.BecameLiteral (m : Machine) (t t' : Table) (i : Instruction) : Prop :=
  ∃ (o : Handle) (x : Value) (e : ScalarText), i.output = some o ∧
    (i.evaluate t' m).toOption = some ⟨o, x, m.generator⟩ ∧ e.Denotes x ∧
    t'.get? o = (t.get? o).map (·.foldInto e.text e.precedence)

theorem Instruction.BecameLiteral.appearance? (became : i.BecameLiteral m t t') (typed : i.Typed t')
    (written : i.output = some o) :
    ∃ x : Value, t'.appearance? o = some ⟨x.kind, true, x.integer?, x.double?⟩ := by
  obtain ⟨o', x, e, output, evaluated, denotes, entry⟩ := became
  obtain rfl := Option.some.inj (output.symm.trans written)
  have kind := typed.kind_of_evaluate evaluated
  simp only [Table.kind?, Table.appearance?, entry, Option.map_map] at kind ⊢
  obtain ⟨v, hv, same⟩ := Option.map_eq_some_iff.mp kind
  have same : v.kind = x.kind := same
  exact ⟨x, by rw [hv, Option.map_some, Function.comp_apply, denotes.appearance_foldInto same, same]⟩

theorem Shortens.becameLiteral (r : Shortens (Settles m) t is is' t')
    (once : (Instruction.outputs is).Nodup) (hi : i ∈ is) (became : i.becameText t t') :
    i.BecameLiteral m t t' := by
  obtain ⟨done, rest, rfl⟩ := List.append_of_mem hi
  obtain ⟨o, u, e, ⟨done', first⟩, computes, settles, entry, kept⟩ := r.of_becameText once became
  obtain ⟨x, value, denotes⟩ := settles.value
  have fresh : o ∉ Instruction.outputs done := fun hm => by
    rw [Instruction.outputs_append] at once
    exact List.disjoint_of_nodup_append once hm (by simp [computes.output])
  refine ⟨o, x, e, computes.output, ?_, denotes, by rw [entry, first.get? (.inr fresh)]⟩
  refine computes.toOption_evaluate (fun k hk => .of_bound ?_ rfl) ?_ value
  · exact (Table.appearance?_congr (kept k (settles.user k hk))).symm
  · rw [first.kind?, r.kind?]

end Settling

namespace Workspace

variable {w w' : Workspace}

/-- What is released depends on the kinds of variables only. -/
theorem temporaries_release_congr (same : w'.temporaries = w.temporaries)
    (kinds : ∀ h, w'.table.kind? h = w.table.kind? h) (h : Handle) :
    (w'.release h).temporaries = (w.release h).temporaries := by
  have kind := kinds h
  unfold release
  rw [same]
  split
  · simp only [Table.kind?] at kind
    cases hv : w.table.get? h <;> cases hv' : w'.table.get? h <;> simp_all
  · exact same

theorem temporaries_releases_congr (same : w'.temporaries = w.temporaries)
    (kinds : ∀ h, w'.table.kind? h = w.table.kind? h) (hs : List Handle) :
    (hs.foldl release w').temporaries = (hs.foldl release w).temporaries := by
  induction hs generalizing w w' with
  | nil => exact same
  | cons h hs ih =>
      refine ih (temporaries_release_congr same kinds h) fun k => ?_
      rw [table_release, table_release]
      exact kinds k

theorem mem_live_releases (nodup : w.temporaries.live.Nodup) (hs : List Handle) (h : Handle) :
    h ∈ (hs.foldl release w).temporaries.live ↔ h ∈ w.temporaries.live ∧ h ∉ hs := by
  induction hs generalizing w with
  | nil => simp
  | cons k hs ih =>
      rw [List.foldl_cons, ih (by rw [live_release]; exact nodup.erase k), live_release,
        nodup.mem_erase_iff, List.mem_cons, not_or]
      tauto

end Workspace

namespace Instruction

variable {t u t' : Table} {i : Instruction}

theorem becameText_self (t : Table) (i : Instruction) : i.becameText t t = false := by
  simp [becameText]

theorem becameText_congr (same : ∀ o, i.output = some o → u.get? o = t.get? o) :
    i.becameText u t' = i.becameText t t' := by
  cases output : i.output with
  | none => simp [becameText, output]
  | some o => simp [becameText, output, Table.IsTemporary, same o output]

theorem becameText_eq_false (same : ∀ o, i.output = some o → t'.get? o = t.get? o) :
    i.becameText t t' = false := by
  rw [← becameText_congr same, becameText_self]

end Instruction

/-- The outputs of the instructions that are folded away are released, in their order. -/
theorem Folding.temporaries_run (policy : Policy) (folder : Folder) (w : Workspace)
    (is : List Instruction) (covered : ∀ i ∈ is, i.Covered w.table) (typed : ∀ i ∈ is, i.Typed w.table)
    (once : (Instruction.outputs is).Nodup) :
    (run policy folder w is).workspace.temporaries =
      ((Instruction.outputs (is.filter
        (·.becameText w.table (run policy folder w is).workspace.table))).foldl .release w).temporaries := by
  fun_induction run policy folder w is with
  | case1 w | case2 w last | case3 w i next rest e failed =>
      simp [Instruction.becameText_self]
  | case4 w i next rest kept f ih =>
      rw [Instruction.outputs_cons] at once
      obtain ⟨-, tail, apart⟩ := List.nodup_append.mp once
      have covered := (List.forall_mem_cons.mp covered).2
      have typed := (List.forall_mem_cons.mp typed).2
      have left : i.becameText w.table f.workspace.table = false := by
        refine Instruction.becameText_eq_false fun o output => ?_
        refine (shortens_run policy folder w (next :: rest) covered typed).get? (.inr fun hm => ?_)
        exact apart o (by simp [output]) o hm rfl
      rw [List.filter_cons, left]
      exact ih covered typed tail
  | case5 w i next rest o e folded f ih =>
      obtain ⟨head, tail⟩ := List.forall_mem_cons.mp covered
      obtain ⟨typedHead, typedTail⟩ := List.forall_mem_cons.mp typed
      obtain ⟨computes, folds⟩ := folds_of_step head typedHead folded
      rw [Instruction.outputs_cons, computes.output, Option.toList_some, List.singleton_append] at once
      obtain ⟨fresh, tailOnce⟩ := List.nodup_cons.mp once
      have kinds (k : Handle) : (w.fold o e).table.kind? k = w.table.kind? k := by
        rw [Table.kind?_eq_content?, Table.kind?_eq_content?, content?_fold]
      have covered' (j : Instruction) (hj : j ∈ next :: rest) := (tail j hj).congr (content?_fold w o e)
      have typed' (j : Instruction) (hj : j ∈ next :: rest) := (typedTail j hj).congr kinds
      have gone : i.becameText w.table f.workspace.table := by
        refine Instruction.becameText_iff.mpr ⟨o, computes.output, computes.temporary, fun temporary => ?_⟩
        have before := (shortens_run policy folder (w.fold o e) _ covered' typed').isTemporary temporary
        rw [table_fold] at before
        exact w.table.not_isTemporary_foldInto o _ _ before
      -- No later instruction writes the output again, so for the others the table is as it was.
      have others : (next :: rest).filter (·.becameText w.table f.workspace.table) =
          (next :: rest).filter (·.becameText (w.fold o e).table f.workspace.table) := by
        refine List.filter_congr fun j hj => ?_
        refine (Instruction.becameText_congr fun k output => ?_).symm
        have other : k ≠ o := by
          rintro rfl
          exact fresh (Instruction.mem_outputs.mpr ⟨j, hj, output⟩)
        rw [table_fold, Table.get?_modify, if_neg other]
      rw [List.filter_cons, if_pos gone, others, Instruction.outputs_cons, computes.output,
        Option.toList_some, List.singleton_append, List.foldl_cons]
      have same : (w.fold o e).temporaries = (w.release o).temporaries := rfl
      refine (ih covered' typed' tailOnce).trans (Workspace.temporaries_releases_congr same (fun k => ?_) _)
      rw [kinds, Workspace.table_release]

namespace Draft

/-- A draft of which some instructions were folded away: exactly their outputs were released, and
have become literals for the values that the instructions have on the machine. -/
structure FoldedAway (m : Machine) (d d' : Draft) : Prop where
  instructions : d'.program.instructions =
    d.program.instructions.filter (! ·.becameText d.workspace.table d'.workspace.table)
  output : d'.program.output = d.program.output
  released : d'.workspace.temporaries =
    ((Instruction.outputs (d.replaced d')).foldl .release d.workspace).temporaries
  others : ∀ h, h ∉ Instruction.outputs (d.replaced d') →
    d'.workspace.table.get? h = d.workspace.table.get? h
  literals : ∀ i ∈ d.replaced d', i.BecameLiteral m d.workspace.table d'.workspace.table

theorem FoldedAway.refl (m : Machine) (d : Draft) : FoldedAway m d d where
  instructions := by simp [Instruction.becameText_self]
  output := rfl
  released := by simp [replaced, Instruction.becameText_self]
  others _ _ := rfl
  literals i hi := by simp [replaced, Instruction.becameText_self] at hi

theorem FoldedAway.mem_live_iff {m : Machine} {d d' : Draft} (away : FoldedAway m d d')
    (managed : d.workspace.Managed) (h : Handle) :
    h ∈ d'.workspace.temporaries.live ↔
      h ∈ d.workspace.temporaries.live ∧ h ∉ Instruction.outputs (d.replaced d') := by
  rw [away.released]
  exact Workspace.mem_live_releases managed.intact.nodup _ h

/-- Runs of the two drafts on the machine both fail, or both end with the same values in the variables
of the user. What is a literal in the second draft only has the value that a run of the first gives
to it. -/
def RunsAlike (m : Machine) (d d' : Draft) : Prop :=
  (∃ m₁ m₂, Yields (Machine.run d.workspace.table d.program) m () m₁ ∧
    Yields (Machine.run d'.workspace.table d'.program) m () m₂ ∧
    m₂.generator = m₁.generator ∧ (∀ h, d.IsUser h → m₂.store.get? h = m₁.store.get? h) ∧
    ∀ o ∈ Instruction.outputs (d.replaced d'), ∃ x, m₁.store.get? o = some x ∧
      d'.workspace.table.appearance? o = some ⟨x.kind, true, x.integer?, x.double?⟩) ∨
  ∃ m₁ m₂, Fails (Machine.run d.workspace.table d.program) m m₁ ∧
    Fails (Machine.run d'.workspace.table d'.program) m m₂

theorem RunsAlike.refl (m : Machine) (d : Draft) : RunsAlike m d d := by
  obtain ⟨_, m₁, ran⟩ | ⟨m₁, failed⟩ := yields_or_fails (Machine.run d.workspace.table d.program) m
  · refine .inl ⟨m₁, m₁, ran, ran, rfl, fun _ _ => rfl, fun o ho => ?_⟩
    simp [replaced, Instruction.becameText_self] at ho
  · exact .inr ⟨m₁, m₁, failed, failed⟩

namespace SingleEquation

variable {d d' : Draft} {body body' : List Instruction} {last : Instruction} {target : Handle}
  {policy : Policy} {folder : Folder} {m : Machine} {t' : Table}

theorem nodup_all_outputs (single : d.SingleEquation body last target) :
    (Instruction.outputs d.program.instructions).Nodup := by
  rw [single.split, Instruction.outputs_append]
  refine single.nodup_outputs.append (by simp [single.output]) fun o first second => ?_
  obtain rfl : o = target := by simpa [single.output] using second
  exact single.user (single.isTemporary_of_mem_outputs first)

theorem settles_foldedBy (single : d.SingleEquation body last target) (policy : Policy)
    (faithful : folder.Faithful d m)
    (covered : ∀ i ∈ d.program.instructions, i.Covered d.workspace.table) :
    Shortens (Settles m) d.workspace.table d.program.instructions
      (d.foldedBy policy folder).program.instructions (d.foldedBy policy folder).workspace.table := by
  refine (Folding.shortens_run policy folder d.workspace d.program.instructions covered
    single.built.formed.typed).settles (fun i hi k hk v => ?_) faithful
  exact single.constant_eq_false hi (Instruction.mem_sources_of_mem_inputs hk)

theorem foldedAway (single : d.SingleEquation body last target) (policy : Policy)
    (faithful : folder.Faithful d m)
    (covered : ∀ i ∈ d.program.instructions, i.Covered d.workspace.table) :
    FoldedAway m d (d.foldedBy policy folder) := by
  have once := single.nodup_all_outputs
  have settles := single.settles_foldedBy policy faithful covered
  refine ⟨settles.eq_filter once fun _ _ => rfl, rfl, Folding.temporaries_run policy folder d.workspace
    d.program.instructions covered single.built.formed.typed once, fun h untouched => ?_, fun i hi => ?_⟩
  · by_cases after : (d.foldedBy policy folder).workspace.table.IsTemporary h
    · exact settles.get?_of_isTemporary after
    · refine settles.get? ?_
      by_contra changed
      rw [not_or, not_not, not_not] at changed
      obtain ⟨before, written⟩ := changed
      obtain ⟨i, hi, output⟩ := Instruction.mem_outputs.mp written
      have became := Instruction.becameText_iff.mpr ⟨h, output, before, after⟩
      exact untouched (Instruction.mem_outputs.mpr ⟨i, List.mem_filter.mpr ⟨hi, became⟩, output⟩)
  · obtain ⟨inside, became⟩ := List.mem_filter.mp hi
    exact settles.becameLiteral once inside became

/-- The runs of an equation and of what is left of it, when instructions are left out that had their
values at the start: both stop on the way, or both end and every variable is found in the end. -/
theorem follows_of_settles (single : d.SingleEquation body last target)
    (covered : ∀ i ∈ d.program.instructions, i.Covered d.workspace.table)
    (steps : ∀ i ∈ d.program.instructions, ∀ k ∈ i.steps d.workspace.table, d.IsUser k)
    (shorter : Shortens (Settles m) d.workspace.table body body' t')
    (kinded : m.store.WellKinded d.workspace.table) :
    ((d.advance m).2 = [] ↔ (Machine.advance t' (body' ++ [last]) m).2 = []) ∧
      ((d.advance m).2 = [] → Follows d.workspace.table t' (fun _ => True) (d.advance m).1
        (Machine.advance t' (body' ++ [last]) m).1) := by
  -- With everything needed in the end, the link at the end covers what became a literal, too.
  have foldable := (single.foldable covered steps).needing fun _ => True
  rw [single.split] at foldable
  rw [Draft.advance, single.split]
  obtain ⟨alike, follows⟩ := Follows.advance_settles shorter (foldable.left body)
    ⟨fun _ => rfl, fun _ _ => rfl⟩ (fun _ => single.isTemporary_of_mem_outputs) (fun _ _ => rfl)
    (.refl _ kinded)
  by_cases done : (Machine.advance d.workspace.table body m).2 = []
  · have ran : Machine.advance d.workspace.table body m = (_, []) := Prod.ext rfl done
    have ran' : Machine.advance t' body' m = (_, []) := Prod.ext rfl (alike.mp done)
    have folded : FoldedFrom d.workspace.table t' [last] := by
      refine ⟨shorter.content?, fun h hh => shorter.get? (.inl (hh.elim id fun written => ?_))⟩
      obtain rfl : h = target := by simpa [single.output] using written
      exact single.user
    have rest : Shortens (Settles m) t' [] [] t' := .nil t'
    obtain ⟨same, next⟩ := (follows done).keep rest (foldable.right body) folded
    rw [Machine.advance_append ran, Machine.advance_append ran']
    simp only [Machine.advance, same]
    cases he : (last.evaluate d.workspace.table (Machine.advance d.workspace.table body m).1).toOption with
    | none => simp
    | some e => exact ⟨.rfl, fun _ => next e he⟩
  · rw [Machine.advance_append_of_ne [last] done, Machine.advance_append_of_ne [last] (mt alike.mpr done)]
    simp

/-- A run of the equation gives the outputs that became literals the values of the literals. -/
theorem value_of_becameLiteral (single : d.SingleEquation body last target)
    {m₁ m₂ : Machine} (follows : Follows d.workspace.table t' (fun _ => True) m₁ m₂) {i : Instruction}
    (hi : i ∈ d.program.instructions) (became : i.BecameLiteral m d.workspace.table t')
    (typed : i.Typed t') {o : Handle} (output : i.output = some o)
    (temporary : d.workspace.table.IsTemporary o) :
    ∃ x, m₁.store.get? o = some x ∧ t'.appearance? o = some ⟨x.kind, true, x.integer?, x.double?⟩ := by
  obtain ⟨y, shown⟩ := became.appearance? typed output
  cases follows.linked o trivial with
  | bound appearance value =>
      obtain ⟨v, hv, literal, -⟩ := single.made (Instruction.mem_outputs.mpr ⟨i, hi, output⟩) temporary
      rw [shown, Table.appearance?, hv, Option.map_some, Option.some.injEq] at appearance
      have isLiteral : v.appearance.isLiteral = true := by rw [← appearance]
      exact absurd (literal.symm.trans isLiteral) Bool.false_ne_true
  | folded a x appearance plain value scalar literal clean =>
      have kind := follows.kinded o x value
      rw [Table.kind?_eq_appearance?, appearance, Option.map_some, Option.some.injEq] at kind
      exact ⟨x, value, by rw [literal, ← kind]⟩

/-- Folding keeps the meaning of an equation, wherever it stops. -/
theorem runs_foldedBy (single : d.SingleEquation body last target) (policy : Policy)
    (faithful : folder.Faithful d m)
    (covered : ∀ i ∈ d.program.instructions, i.Covered d.workspace.table)
    (steps : ∀ i ∈ d.program.instructions, ∀ k ∈ i.steps d.workspace.table, d.IsUser k)
    (kinded : m.store.WellKinded d.workspace.table) :
    RunsAlike m d (d.foldedBy policy folder) := by
  have settles := single.settles_foldedBy policy faithful covered
  have away := single.foldedAway policy faithful covered
  rw [single.split] at settles
  obtain ⟨body', left, shorter⟩ := settles.of_concat_user single.output single.user
  obtain ⟨alike, follows⟩ := single.follows_of_settles covered steps shorter kinded
  rw [← left] at alike follows
  have ended : ((d.foldedBy policy folder).advance m).2 = [] ↔ (d.advance m).2 = [] := alike.symm
  have folded : FoldedFrom d.workspace.table (d.foldedBy policy folder).workspace.table [] :=
    ⟨shorter.content?, fun h hh => shorter.get? (hh.imp_right fun written => by cases written)⟩
  obtain ⟨m₁, m₂, ran, ran', generator, values⟩ | failed :=
    runs_of_advance ended (fun done => (follows done).generator)
      fun done h (user : d.IsUser h) => (follows done).get?_eq folded trivial user
  · have ends := yields_run_iff.mp ran
    have follows := follows (by rw [ends])
    rw [ends] at follows
    refine .inl ⟨m₁, m₂, ran, ran', generator, values, fun o ho => ?_⟩
    obtain ⟨i, hi, output⟩ := Instruction.mem_outputs.mp ho
    obtain ⟨inside, became⟩ := List.mem_filter.mp hi
    obtain ⟨o', output', temporary, -⟩ := Instruction.becameText_iff.mp became
    obtain rfl := Option.some.inj (output.symm.trans output')
    exact single.value_of_becameLiteral follows inside (away.literals i hi)
      ((single.built.formed.typed i inside).congr shorter.kind?) output temporary
  · exact .inr failed

/-- When the optimizer fails, with a folder that fails, declines or gives the value of the
instruction, it leaves a program that can be used. It is the program of the equation without the
instructions that were folded away, whose outputs have become literals and were released. Its runs end
as those of the equation do, with the same values in the variables of the user, and the literals have the
values that a run of the equation gives to the variables. The runs start with values of the kinds of
their variables: a machine alone takes any values, but a context binds no others, which is what
`Context.Consistent` says of its store. -/
theorem foldedAway_of_fails_optimize (single : d.SingleEquation body last target)
    (faithful : folder.Faithful d m) (failed : Fails (Drafting.optimize policy folder) d d') :
    FoldedAway m d d' ∧
    (d.workspace.Managed → ∀ h, h ∈ d'.workspace.temporaries.live ↔
      h ∈ d.workspace.temporaries.live ∧ h ∉ Instruction.outputs (d.replaced d')) ∧
    ((∀ i ∈ d.program.instructions, ∀ k ∈ i.steps d.workspace.table, d.IsUser k) →
      m.store.WellKinded d.workspace.table → RunsAlike m d d') := by
  obtain rfl | ⟨covered, rfl⟩ := Drafting.of_fails_optimize single.built failed
  · have away := FoldedAway.refl m d'
    exact ⟨away, away.mem_live_iff, fun _ _ => .refl m d'⟩
  · have away := single.foldedAway policy faithful covered
    exact ⟨away, away.mem_live_iff, single.runs_foldedBy policy faithful covered⟩

end SingleEquation
end Draft

/-- The equation `x = -n + n * (0 + 1)` in the integers `n` and `x`. -/
def Drafting.negatedProduct : Drafting Unit := do
  let one ← apply (Request.binary .add ⟨0⟩ ⟨1⟩).perform
  let negated ← apply (Request.unary .negate ⟨2⟩).perform
  let product ← apply (Request.binary .multiply ⟨2⟩ one).perform
  let sum ← apply (Request.binary .add negated product).perform
  assign sum ⟨3⟩

namespace Draft

/-- The draft of `x = -n + n * (0 + 1)`. -/
abbrev negatedProduct : Draft := ofEquation .negatedProduct (.ofIntegers ["n", "x"])

theorem singleEquation_negatedProduct :
    (∃ body last, negatedProduct.SingleEquation body last ⟨3⟩) ∧ negatedProduct.workspace.Managed := by
  have ran : Yields Drafting.negatedProduct ⟨.ofIntegers ["n", "x"], .empty⟩ () negatedProduct :=
    yields_of_toOption (by decide +kernel)
  obtain ⟨_, _, first, ran⟩ := ran.of_bind
  obtain ⟨_, _, second, ran⟩ := ran.of_bind
  obtain ⟨_, _, third, ran⟩ := ran.of_bind
  obtain ⟨_, _, fourth, assigned⟩ := ran.of_bind
  have start : (Workspace.ofIntegers ["n", "x"]).Managed := .start _
  refine ⟨⟨negatedProduct.program.instructions.dropLast, _, .assign (.request (.request (.request
    (.request (.start _) _ _ first) _ _ second) _ _ third) _ _ fourth) _ _ assigned,
    (List.dropLast_append_getLast (by decide +kernel)).symm, ?_, ?_, ?_, ?_, forall_of_take ?_⟩, ?_⟩
  case refine_6 =>
    exact Drafting.managed_of_assign (Drafting.managed_of_apply (Drafting.managed_of_apply
      (Drafting.managed_of_apply (Drafting.managed_of_apply start first) second) third) fourth) assigned
  all_goals decide +kernel

end Draft

/-- The machine on which `n` is five. -/
def Machine.withFive : Machine := ⟨Store.empty.set ⟨2⟩ (.integer 5), .initial⟩

/-- The negation of `n` in `x = -n + n * (0 + 1)`. -/
def Instruction.negation : Instruction := Form.instruction ⟨.negate, .i, .integer, []⟩ [⟨2⟩] ⟨5⟩

/-- Knows the value of a negation when `n` is five, and fails on everything else. -/
def Folder.negatingFive : Folder := fun t i =>
  if i.primitive = .negate then return some (.integer (-5)) else refusing t i

theorem Folder.faithful_negatingFive :
    Folder.negatingFive.Faithful Draft.negatedProduct Machine.withFive := by
  intro t i e folded hi answer
  have negation : ∀ j ∈ Draft.negatedProduct.program.instructions, j.primitive = .negate →
      j = .negation := by decide +kernel
  unfold negatingFive at answer
  split at answer
  · next negate =>
      obtain rfl := negation i hi negate
      cases answer
      have computes : Instruction.negation.Computes Draft.negatedProduct.workspace.table ⟨5⟩ :=
        ⟨rfl, by decide +kernel, ⟨.integer, by decide +kernel, rfl⟩, rfl, rfl, rfl, by decide⟩
      have value : (Instruction.negation.evaluate Draft.negatedProduct.workspace.table .withFive).toOption =
          some ⟨⟨5⟩, .integer (-5), Machine.withFive.generator⟩ := rfl
      have evaluated : (Instruction.negation.evaluate t .withFive).toOption =
          some ⟨⟨5⟩, .integer (-5), Machine.withFive.generator⟩ := by
        refine computes.toOption_evaluate (fun k hk => .of_bound ?_ rfl) ?_ value
        · obtain rfl := List.mem_singleton.mp hk
          exact (Table.appearance?_congr (folded.kept ⟨2⟩ (.inl (by decide +kernel)))).symm
        · rw [Table.kind?_eq_content?, Table.kind?_eq_content?, folded.content]
      exact ⟨.integer (-5), by rw [evaluated]; rfl, _, rfl, rfl⟩
  · cases answer

/-- The sum and the negation of `x = -n + n * (0 + 1)` are folded away, then the folder fails on the
product. -/
theorem Draft.SingleEquation.foldedAway_negatedProduct :
    let d := negatedProduct
    (∃ body last, d.SingleEquation body last ⟨3⟩) ∧ Folder.negatingFive.Faithful d .withFive ∧
      d.workspace.Managed ∧ (∀ i ∈ d.program.instructions, ∀ k ∈ i.steps d.workspace.table, d.IsUser k) ∧
      Machine.withFive.store.WellKinded d.workspace.table ∧
      ∃ d', Fails (Drafting.optimize .scalars .negatingFive) d d' ∧ d'.program.size = 3 ∧
        Instruction.outputs (d.replaced d') = [⟨4⟩, ⟨5⟩] ∧ FoldedAway .withFive d d' ∧
        d'.workspace.temporaries.live = [⟨7⟩, ⟨6⟩] ∧ RunsAlike .withFive d d' := by
  intro d
  obtain ⟨⟨body, last, single⟩, managed⟩ := singleEquation_negatedProduct
  have faithful := Folder.faithful_negatingFive
  have steps : ∀ i ∈ d.program.instructions, ∀ k ∈ i.steps d.workspace.table, d.IsUser k := by
    decide +kernel
  have kinded : Machine.withFive.store.WellKinded d.workspace.table :=
    (Store.wellKinded_empty _).set (by decide +kernel)
  have failed : Fails (Drafting.optimize .scalars .negatingFive) d _ :=
    fails_of_toOption (by decide +kernel)
  obtain ⟨away, -, runs⟩ := foldedAway_of_fails_optimize single faithful failed
  refine ⟨⟨body, last, single⟩, faithful, managed, steps, kinded, _, failed, ?_, ?_, away, ?_,
    runs steps kinded⟩
  all_goals decide +kernel

end MatrixCode
