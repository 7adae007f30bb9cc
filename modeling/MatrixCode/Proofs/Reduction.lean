import MatrixCode.Proofs.Literals
import MatrixCode.Proofs.Liveness

/-!
Instructions on literals. Such an instruction has the same value in every state, so a run
does not notice when it is left out and its output becomes a literal with that value. This
needs that the output is written once and not read before.
-/

namespace MatrixCode
namespace Instruction

/-- An integer result depends on the generator, and changes it, only for a new seed. -/
theorem toOption_integerResult_generator {i : Instruction} (hi : i.primitive ≠ .reseed) (t : Table)
    (s : Store) (g g' : Generator) :
    (i.integerResult t s g').toOption = (i.integerResult t s g).toOption.map fun r => (r.1, g') := by
  unfold integerResult
  generalize i.signature = σ
  generalize hp : i.primitive = p at hi
  split
  case h_10 => exact absurd rfl hi
  case h_11 => rfl
  all_goals
    simp only [Outcome.toOption_bind]
    cases (i.inputs.mapM (s.integer t)).toOption with
    | none => rfl
    | some arguments =>
        simp only [Option.bind_some]
        split <;> rfl

/-- An instruction that computes a scalar temporary, and does not draw it at random. -/
structure Computes (t : Table) (i : Instruction) (o : Handle) : Prop where
  output : i.output = some o
  temporary : t.IsTemporary o
  scalar : ∃ kind, t.kind? o = some kind ∧ kind.isScalar
  primitive : i.primitive.isRandom = false
  range : i.range = none
  blocks : i.blocks = none
  operands : i.inputs ≠ []

/-- A scalar instruction on literals: it has one value, whatever the state. -/
structure Amounts (t : Table) (i : Instruction) (o : Handle) (x : Value) : Prop
    extends Computes t i o where
  literal : ∀ k ∈ i.inputs, ∃ a, t.appearance? k = some a ∧ a.isLiteral ∧ a.kind.isScalar
  value : (i.evaluate t .initial).toOption.map Effect.value = some x

/-- A literal is read alike in every store without a matrix in its place. -/
theorem sameReading_of_literal {t t' : Table} {s s' : Store} {k : Handle} {a : Appearance}
    (l : Linked t t' s s' k k) (ha : t'.appearance? k = some a) (literal : a.isLiteral)
    (clean : s.matrix? k = none) : SameReading t t' s .empty k k where
  kind := l.sameReading.kind
  integer := by
    rw [← l.sameReading.integer, Store.toOption_integer, Store.toOption_integer, ha]
    simp [literal]
  double := by
    rw [← l.sameReading.double, Store.toOption_double, Store.toOption_double, ha]
    simp [literal]
  matrix := by rw [Store.toOption_matrix, Store.toOption_matrix, clean]; rfl

namespace Amounts

variable {t t' : Table} {i : Instruction} {o : Handle} {x : Value} {s s' : Store}

theorem sources_eq (range : i.range = none) (blocks : i.blocks = none) (t : Table) :
    i.sources t = i.inputs := by
  simp [sources, range, items, blocks]

end Amounts

/-- An instruction with no range and no blocks does the same for readers that agree on its operands. -/
theorem toOption_evaluate_of_reads {t t' : Table} {i : Instruction} {s s' : Store}
    (range : i.range = none) (blocks : i.blocks = none)
    (reads : ∀ k ∈ i.inputs, SameReading t t' s s' k k)
    (target : ∀ w, i.output = some w → t'.kind? w = t.kind? w) (g : Generator) :
    (i.evaluate t ⟨s, g⟩).toOption = (i.evaluate t' ⟨s', g⟩).toOption := by
  have sources : i.sources t = i.inputs := Amounts.sources_eq range blocks t
  have whole : i.isPartial = false := by simp [isPartial, range]
  have carries : Carries id t t' s s' i :=
    { reads := ⟨fun k hk => reads k (sources ▸ hk), by simp [range], by simp [steps, range]⟩
      target := target
      apart := fun w _ _ k _ same => same
      whole := fun w _ hp => absurd hp (by simp [whole])
      rest := fun w _ hp => absurd hp (by simp [whole]) }
  have same := toOption_evaluate_rename g carries
  rw [rename_id] at same
  rw [same]
  cases (i.evaluate t ⟨s, g⟩).toOption <;> rfl

/-- An instruction on literals does in every state what it does on an empty machine, when
the other table shows the literals. -/
theorem toOption_evaluate_of_literals {t t' : Table} {i : Instruction} {s s' : Store}
    (range : i.range = none) (blocks : i.blocks = none)
    (literal : ∀ k ∈ i.inputs, ∃ a, t'.appearance? k = some a ∧ a.isLiteral ∧ a.kind.isScalar)
    (linked : ∀ k ∈ i.inputs, Linked t t' s s' k k) (kinded : s.WellKinded t)
    (target : ∀ w, i.output = some w → t'.kind? w = t.kind? w) (g : Generator) :
    (i.evaluate t ⟨s, g⟩).toOption = (i.evaluate t' ⟨.empty, g⟩).toOption := by
  refine toOption_evaluate_of_reads range blocks (fun k hk => ?_) target g
  obtain ⟨a, ha, isLiteral, scalar⟩ := literal k hk
  refine sameReading_of_literal (linked k hk) ha isLiteral (kinded.matrix?_eq_none ?_)
  rw [← (linked k hk).sameReading.kind, Table.kind?_eq_appearance?, ha]
  rintro matrix
  simp_all [Kind.isScalar]

/-- A scalar instruction without random numbers neither looks at the generator nor moves it. -/
theorem toOption_evaluate_generator {t : Table} {i : Instruction} {o : Handle} {kind : Kind}
    (output : i.output = some o) (hk : t.kind? o = some kind) (scalar : kind.isScalar)
    (range : i.range = none) (plain : i.primitive.isRandom = false) (s : Store) (g g' : Generator) :
    (i.evaluate t ⟨s, g'⟩).toOption =
      (i.evaluate t ⟨s, g⟩).toOption.map fun e => { e with generator := g' } := by
  have whole : i.isPartial = false := by simp [isPartial, range]
  have seed : i.primitive ≠ .reseed := by
    rintro h
    simp [h, Primitive.isRandom] at plain
  rw [toOption_evaluate, toOption_evaluate, output]
  simp only [Option.bind_some, result, whole, Bool.false_eq_true, if_false, hk]
  split
  · cases (i.assembleResult t s).toOption <;> rfl
  · cases kind with
    | integer =>
        simp only [toOption_integerResult_generator seed t s g g']
        cases (i.integerResult t s g).toOption <;> rfl
    | double => cases (i.doubleResult t s).toOption <;> rfl
    | matrix | sequence => simp [Kind.isScalar] at scalar

/-- The value of an instruction on literals is its value in every state that the literals
stand for. -/
theorem Amounts.toOption_evaluate {t t' : Table} {i : Instruction} {o : Handle} {x : Value}
    {s s' : Store} (a : Amounts t' i o x) (linked : ∀ k ∈ i.inputs, Linked t t' s s' k k)
    (kinded : s.WellKinded t) (target : t'.kind? o = t.kind? o) (g : Generator) :
    (i.evaluate t ⟨s, g⟩).toOption = some ⟨o, x, g⟩ := by
  obtain ⟨kind, hk, scalar⟩ := a.scalar
  rw [toOption_evaluate_of_literals a.range a.blocks a.literal linked kinded
    (fun w hw => by simp_all [a.output]) g]
  obtain ⟨e, he, hx⟩ := Option.map_eq_some_iff.mp a.value
  have ho := output_of_evaluate he
  rw [a.output, Option.some.injEq] at ho
  have initial : Machine.initial = ⟨.empty, .initial⟩ := rfl
  rw [initial] at he
  rw [toOption_evaluate_generator a.output hk scalar a.range a.primitive .empty .initial g, he, ho, ← hx]
  rfl

end Instruction

namespace Table

theorem content?_modify_foldInto (t : Table) (h k : Handle) (text : String) (precedence : Nat) :
    (t.modify h (·.foldInto text precedence)).content? k = t.content? k := by
  simp only [content?, get?_modify]
  split
  · cases t.get? k <;> rfl
  · rfl

theorem not_isTemporary_foldInto (t : Table) (h : Handle) (text : String) (precedence : Nat) :
    ¬(t.modify h (·.foldInto text precedence)).IsTemporary h := by
  rintro ⟨v, hv, temporary⟩
  rw [get?_modify, if_pos rfl] at hv
  obtain ⟨u, -, rfl⟩ := Option.map_eq_some_iff.mp hv
  cases temporary

theorem isTemporary_of_foldInto {t : Table} {h k : Handle} {text : String} {precedence : Nat}
    (temporary : (t.modify h (·.foldInto text precedence)).IsTemporary k) : t.IsTemporary k := by
  have other : k ≠ h := by
    rintro rfl
    exact not_isTemporary_foldInto t k text precedence temporary
  rwa [IsTemporary, get?_modify, if_neg other] at temporary

theorem appearance?_congr {t t' : Table} {h : Handle} (same : t'.get? h = t.get? h) :
    t'.appearance? h = t.appearance? h := by
  rw [appearance?, appearance?, same]

end Table

theorem Instruction.Computes.of_foldInto {t : Table} {i : Instruction} {h o : Handle} {text : String}
    {precedence : Nat} (c : i.Computes (t.modify h (·.foldInto text precedence)) o) :
    i.Computes t o where
  output := c.output
  temporary := Table.isTemporary_of_foldInto c.temporary
  scalar := by
    have scalar := c.scalar
    rwa [Table.kind?_eq_content?, Table.content?_modify_foldInto, ← Table.kind?_eq_content?] at scalar
  primitive := c.primitive
  range := c.range
  blocks := c.blocks
  operands := c.operands

/-- Leaves out instructions that compute scalars, and their outputs become the texts that `folds`
gives: what is left, and the table then. -/
inductive Shortens (folds : Table → Instruction → Handle → ScalarText → Prop) :
    Table → List Instruction → List Instruction → Table → Prop where
  | nil (t : Table) : Shortens folds t [] [] t
  | keep {t t' : Table} {is is' : List Instruction} (i : Instruction)
      (rest : Shortens folds t is is' t') : Shortens folds t (i :: is) (i :: is') t'
  | fold {t t' : Table} {is is' : List Instruction} {i : Instruction} {o : Handle} {e : ScalarText}
      (computes : i.Computes t o) (text : folds t i o e)
      (rest : Shortens folds (t.modify o (·.foldInto e.text e.precedence)) is is' t') :
      Shortens folds t (i :: is) is' t'

namespace Shortens

variable {folds : Table → Instruction → Handle → ScalarText → Prop} {t t' : Table}
  {is is' : List Instruction}

theorem refl (t : Table) (is : List Instruction) : Shortens folds t is is t := by
  induction is with
  | nil => exact .nil t
  | cons i is ih => exact .keep i ih

theorem append (r : Shortens folds t is is' t') (rest : List Instruction) :
    Shortens folds t (is ++ rest) (is' ++ rest) t' := by
  induction r with
  | nil t => exact .refl t rest
  | keep i _ ih => exact .keep i ih
  | fold computes text _ ih => exact .fold computes text ih

theorem mono {folds' : Table → Instruction → Handle → ScalarText → Prop}
    (h : ∀ {t i o e}, i.Computes t o → folds t i o e → folds' t i o e)
    (r : Shortens folds t is is' t') : Shortens folds' t is is' t' := by
  induction r with
  | nil t => exact .nil t
  | keep i _ ih => exact .keep i ih
  | fold computes text _ ih => exact .fold computes (h computes text) ih

theorem content? (r : Shortens folds t is is' t') (h : Handle) : t'.content? h = t.content? h := by
  induction r with
  | nil _ => rfl
  | keep i rest ih => exact ih
  | fold computes text rest ih => rw [ih, Table.content?_modify_foldInto]

theorem kind? (r : Shortens folds t is is' t') (h : Handle) : t'.kind? h = t.kind? h := by
  rw [Table.kind?_eq_content?, Table.kind?_eq_content?, r.content?]

/-- Only temporaries that are written are changed. -/
theorem get? (r : Shortens folds t is is' t') {h : Handle}
    (hh : ¬t.IsTemporary h ∨ h ∉ Instruction.outputs is) : t'.get? h = t.get? h := by
  induction r with
  | nil _ => rfl
  | keep i rest ih => exact ih (hh.imp_right fun hn hm => hn (by simp [hm]))
  | @fold t t' is is' i o e computes text rest ih =>
      have other : h ≠ o := by
        rintro rfl
        exact hh.elim (· computes.temporary) (· (by simp [computes.output]))
      have same : (t.modify o (·.foldInto e.text e.precedence)).get? h = t.get? h := by
        rw [Table.get?_modify, if_neg other]
      rw [ih (hh.imp (fun hn ht => hn ?_) fun hn hm => hn (by simp [hm])), same]
      rwa [Table.IsTemporary, same] at ht

theorem sublist (r : Shortens folds t is is' t') : is'.Sublist is := by
  induction r with
  | nil _ => exact .slnil
  | keep i rest ih => exact ih.cons_cons i
  | fold computes text rest ih => exact ih.cons _

/-- What is a temporary in the end has not been touched. -/
theorem get?_of_isTemporary (r : Shortens folds t is is' t') {h : Handle}
    (temporary : t'.IsTemporary h) : t'.get? h = t.get? h := by
  induction r with
  | nil _ => rfl
  | keep i rest ih => exact ih temporary
  | @fold t t' is is' i o e computes text rest ih =>
      have same := ih temporary
      have other : h ≠ o := by
        rintro rfl
        rw [Table.IsTemporary, same] at temporary
        exact t.not_isTemporary_foldInto h e.text e.precedence temporary
      rw [same, Table.get?_modify, if_neg other]

theorem isTemporary (r : Shortens folds t is is' t') {h : Handle} (temporary : t'.IsTemporary h) :
    t.IsTemporary h := by
  have before := temporary
  rwa [Table.IsTemporary, r.get?_of_isTemporary temporary] at before

/-- What has become a text is a scalar. -/
theorem scalar (r : Shortens folds t is is' t') {h : Handle} (before : t.IsTemporary h)
    (after : ¬t'.IsTemporary h) : ∃ kind, t.kind? h = some kind ∧ kind.isScalar := by
  induction r with
  | nil _ => exact absurd before after
  | keep i rest ih => exact ih before after
  | @fold t t' is is' i o e computes text rest ih =>
      by_cases same : h = o
      · subst same
        exact computes.scalar
      · have entry : (t.modify o (·.foldInto e.text e.precedence)).get? h = t.get? h := by
          rw [Table.get?_modify, if_neg same]
        have still := ih (by rwa [Table.IsTemporary, entry]) after
        rwa [Table.kind?, entry] at still

/-- A temporary that is live in what is left was live before. -/
theorem live (r : Shortens folds t is is' t') {out out' : Handle → Prop} {h : Handle}
    (temporary : t'.IsTemporary h) (ho : out' h → out h) (hl : Live t' out' is' h) :
    Live t out is h := by
  induction r with
  | nil _ => exact ho hl
  | keep i rest ih =>
      refine hl.imp (fun hu => ?_) fun ⟨other, live⟩ => ⟨other, ih temporary live⟩
      rwa [Instruction.uses_congr rest.content?] at hu
  | @fold t t' is is' i o e computes text rest ih =>
      refine .inr ⟨fun same => ?_,
        (ih temporary hl).congr fun k => (Table.content?_modify_foldInto t o k e.text e.precedence)⟩
      obtain rfl : o = h := by simpa [computes.output] using same
      rw [Table.IsTemporary, rest.get?_of_isTemporary temporary] at temporary
      exact t.not_isTemporary_foldInto o e.text e.precedence temporary

end Shortens

/-- The text is a literal with the value of the instruction. -/
def Instruction.AmountsTo (t : Table) (i : Instruction) (o : Handle) (e : ScalarText) : Prop :=
  ∃ x, i.Amounts t o x ∧ Machine.literal? x = some e

/-- Leaves out instructions on literals, whose outputs become literals. -/
abbrev Reduces := Shortens Instruction.AmountsTo

/-- What folding asks of a program: temporaries are written once and not read before, they are
not literals already, and no range is stepped by one. -/
structure Foldable (t : Table) (out : Handle → Prop) (is : List Instruction) : Prop where
  fresh : ∀ o ∈ Instruction.outputs is, t.IsTemporary o → ¬Live t out is o
  once : ∀ o, t.IsTemporary o → (Instruction.outputs is).count o ≤ 1
  plain : ∀ o ∈ Instruction.outputs is, ∀ a, t.IsTemporary o → t.appearance? o = some a →
    a.isLiteral = false
  typed : ∀ i ∈ is, i.Typed t
  steps : ∀ i ∈ is, ∀ k ∈ i.steps t, ¬t.IsTemporary k

/-- What was folded so far: no output that is still to come. -/
structure FoldedFrom (t w : Table) (is : List Instruction) : Prop where
  content : ∀ h, w.content? h = t.content? h
  kept : ∀ h, ¬t.IsTemporary h ∨ h ∈ Instruction.outputs is → w.get? h = t.get? h

section Simulation

variable {t w t' : Table} {out : Handle → Prop} {i : Instruction} {is is' : List Instruction}
  {folds : Table → Instruction → Handle → ScalarText → Prop}

theorem Foldable.notMem_outputs (f : Foldable t out (i :: is)) {o : Handle} (ho : i.output = some o)
    (temporary : t.IsTemporary o) : o ∉ Instruction.outputs is := by
  intro hm
  have once := f.once o temporary
  have again := List.count_pos_iff.mpr hm
  rw [Instruction.outputs_cons, ho, Option.toList_some, List.singleton_append,
    List.count_cons_self] at once
  omega

theorem Foldable.tail (f : Foldable t out (i :: is)) : Foldable t out is where
  fresh o ho temporary live := by
    have other : i.output ≠ some o := fun same => f.notMem_outputs same temporary ho
    exact f.fresh o (by simp [ho]) temporary (.inr ⟨other, live⟩)
  once o temporary := by
    have := f.once o temporary
    simp only [Instruction.outputs_cons, List.count_append] at this
    omega
  plain o ho := f.plain o (by simp [ho])
  typed j hj := f.typed j (List.mem_cons_of_mem i hj)
  steps j hj := f.steps j (List.mem_cons_of_mem i hj)

theorem Foldable.left (done : List Instruction) (f : Foldable t out (done ++ is)) :
    Foldable t (Live t out is) done where
  fresh o ho temporary live :=
    f.fresh o (by simp [ho]) temporary ((Live.append done is).mpr live)
  once o temporary := by
    have := f.once o temporary
    simp only [Instruction.outputs_append, List.count_append] at this
    omega
  plain o ho := f.plain o (by simp [ho])
  typed j hj := f.typed j (List.mem_append_left is hj)
  steps j hj := f.steps j (List.mem_append_left is hj)

theorem FoldedFrom.tail (f : FoldedFrom t w (i :: is)) : FoldedFrom t w is where
  content := f.content
  kept h hh := f.kept h (hh.imp_right fun hm => by simp [hm])

/-- The values that one machine holds are found in another, some of them as literals. -/
structure Follows (t w : Table) (p : Handle → Prop) (m m' : Machine) : Prop where
  linked : ∀ h, p h → Linked t w m.store m'.store h h
  generator : m'.generator = m.generator
  kinded : m.store.WellKinded t
  kinded' : m'.store.WellKinded t

/-- Only the temporaries that are still to be written change on the way to the final table. -/
theorem FoldedFrom.get?_final (folded : FoldedFrom t w (i :: is)) (r : Shortens folds w is is' t')
    {h : Handle} (kept : h ∈ Instruction.outputs is → ¬t.IsTemporary h) : t'.get? h = w.get? h := by
  by_cases written : h ∈ Instruction.outputs is
  · have same : w.get? h = t.get? h := folded.kept h (.inr (by simp [written]))
    exact r.get? (.inl (by rw [Table.IsTemporary, same]; exact kept written))
  · exact r.get? (.inr written)

/-- The next instruction has the same output in all three tables. -/
theorem FoldedFrom.get?_output (folded : FoldedFrom t w (i :: is)) (r : Shortens folds w is is' t')
    (foldable : Foldable t out (i :: is)) {o : Handle} (ho : i.output = some o) :
    t'.get? o = t.get? o := by
  rw [folded.get?_final r fun written temporary => foldable.notMem_outputs ho temporary written,
    folded.kept o (.inr (by simp [ho]))]

/-- A link to the table in between is a link to the final table for everything live. -/
theorem Follows.final {m m' : Machine} (r : Shortens folds w is is' t')
    (foldable : Foldable t out (i :: is)) (folded : FoldedFrom t w (i :: is))
    (follows : Follows t w (Live t out (i :: is)) m m') {h : Handle}
    (live : Live t out (i :: is) h) : Linked t t' m.store m'.store h h := by
  have same : t'.get? h = w.get? h := folded.get?_final r fun written temporary =>
    foldable.fresh h (by simp [written]) temporary live
  have appearance := Table.appearance?_congr same
  cases follows.linked h live with
  | bound alike value => exact .bound (appearance.trans alike) value
  | folded a x alike plain value scalar literal clean =>
      exact .folded a x alike plain value scalar (appearance.trans literal) clean

/-- An instruction that is kept finds the same operands, steps and output on both machines. -/
theorem Follows.carries {m m' : Machine} (r : Shortens folds w is is' t')
    (foldable : Foldable t out (i :: is)) (folded : FoldedFrom t w (i :: is))
    (follows : Follows t w (Live t out (i :: is)) m m') :
    Instruction.Carries id t t' m.store m'.store i := by
  have head := List.mem_cons_self (a := i) (l := is)
  have source (k : Handle) (hk : k ∈ i.sources t) : Linked t t' m.store m'.store k k :=
    follows.final r foldable folded (.inl (Instruction.mem_uses_of_mem_sources hk))
  have whole (o : Handle) (ho : i.output = some o) (hp : i.isPartial) :
      m'.store.get? o = m.store.get? o := by
    cases follows.linked o (.inl (Instruction.mem_uses_of_isPartial ho hp)) with
    | bound appearance value => exact value
    | folded a x appearance plain value scalar literal clean =>
        -- what is written in part is a matrix, and only scalars are folded
        have matrix := (foldable.typed i head).matrix o ho (.inl hp)
        rw [follows.kinded o x value] at matrix
        cases x <;> simp [Value.kind, Value.matrix?] at matrix scalar
  refine Instruction.carries_of_linked source ?_ ?_ ?_ whole fun o ho _ k hk same => same
  · intro k hk
    rw [id, r.content? k, folded.content k]
    cases t.content? k <;> simp
  · intro k hk
    have fixed := foldable.steps i head k hk
    exact Table.appearance?_congr
      ((folded.get?_final r fun _ => fixed).trans (folded.kept k (.inl fixed)))
  · intro o ho
    exact Table.appearance?_congr (folded.get?_output r foldable ho)

/-- An instruction that is kept does the same on both machines. -/
theorem Follows.keep {m m' : Machine} (r : Shortens folds w is is' t')
    (foldable : Foldable t out (i :: is)) (folded : FoldedFrom t w (i :: is))
    (follows : Follows t w (Live t out (i :: is)) m m') :
    (i.evaluate t' m').toOption = (i.evaluate t m).toOption ∧
      ∀ e, (i.evaluate t m).toOption = some e →
        Follows t w (Live t out is) (m.apply e) (m'.apply e) := by
  refine ⟨?_, fun e he => ?_⟩
  · have carries := follows.carries r foldable folded
    obtain ⟨s', g'⟩ := m'
    obtain rfl : g' = m.generator := follows.generator
    have same := Instruction.toOption_evaluate_rename m.generator carries
    rw [Instruction.rename_id] at same
    rw [same]
    cases (i.evaluate t m).toOption <;> rfl
  · have ho := Instruction.output_of_evaluate he
    have kind := (foldable.typed i List.mem_cons_self).kind_of_evaluate he
    refine ⟨fun h live => ?_, rfl, follows.kinded.set kind, follows.kinded'.set kind⟩
    by_cases other : h = e.target
    · subst other
      have same : w.get? e.target = t.get? e.target := folded.kept e.target (.inr (by simp [ho]))
      exact .bound (Table.appearance?_congr same) (by simp [Machine.apply])
    · have before := follows.linked h (.inr ⟨fun same => other (by simp_all), live⟩)
      exact before.set e.value other other

/-- An operand of the next instruction is found in the other machine. -/
theorem Follows.input {m m' : Machine} (follows : Follows t w (Live t out (i :: is)) m m') {k : Handle}
    (hk : k ∈ i.inputs) : Linked t w m.store m'.store k k :=
  follows.linked k (.inl (Instruction.mem_uses_of_mem_sources (Instruction.mem_sources_of_mem_inputs hk)))

theorem FoldedFrom.kind_output (folded : FoldedFrom t w (i :: is)) {o : Handle}
    (output : i.output = some o) : w.kind? o = t.kind? o := by
  rw [Table.kind?, Table.kind?, folded.kept o (.inr (by simp [output]))]

/-- An instruction on literals has the same value in the run of the whole program. -/
theorem Follows.evaluate {m m' : Machine} {o : Handle} {x : Value} (amounts : i.Amounts w o x)
    (folded : FoldedFrom t w (i :: is)) (follows : Follows t w (Live t out (i :: is)) m m') :
    (i.evaluate t m).toOption = some ⟨o, x, m.generator⟩ :=
  amounts.toOption_evaluate (fun _ => follows.input) follows.kinded (folded.kind_output amounts.output)
    m.generator

/-- An instruction can be left out when its output becomes a literal with its value. -/
theorem Follows.fold {m m' : Machine} {o : Handle} {x : Value} {e : ScalarText}
    (computes : i.Computes w o) (denotes : e.Denotes x)
    (evaluated : (i.evaluate t m).toOption = some ⟨o, x, m.generator⟩)
    (foldable : Foldable t out (i :: is)) (folded : FoldedFrom t w (i :: is))
    (follows : Follows t w (Live t out (i :: is)) m m') :
    FoldedFrom t (w.modify o (·.foldInto e.text e.precedence)) is ∧
      Follows t (w.modify o (·.foldInto e.text e.precedence)) (Live t out is)
        (m.apply ⟨o, x, m.generator⟩) m' := by
  have written : o ∈ Instruction.outputs (i :: is) := by simp [computes.output]
  have same := folded.kept o (.inr written)
  obtain ⟨v, hv, temporary⟩ : t.IsTemporary o := by
    have := computes.temporary
    rwa [Table.IsTemporary, same] at this
  have kind : t.kind? o = some x.kind :=
    (foldable.typed i List.mem_cons_self).kind_of_evaluate evaluated
  have scalar := denotes.matrix?
  refine ⟨⟨fun h => ?_, fun h hh => ?_⟩, fun h live => ?_, follows.generator,
    follows.kinded.set kind, follows.kinded'⟩
  · rw [Table.content?_modify_foldInto, folded.content h]
  · have other : h ≠ o := by
      rintro rfl
      exact hh.elim (· ⟨v, hv, temporary⟩)
        (foldable.notMem_outputs computes.output ⟨v, hv, temporary⟩)
    rw [Table.get?_modify, if_neg other]
    exact folded.kept h (hh.imp_right fun hm => by simp [hm])
  · by_cases other : h = o
    · subst other
      have alike : t.appearance? h = some v.appearance := by rw [Table.appearance?, hv]; rfl
      refine .folded v.appearance x alike (foldable.plain h written _ ⟨v, hv, temporary⟩ alike)
        (by simp [Machine.apply]) scalar ?_ (follows.kinded'.matrix?_eq_none ?_)
      · have hk : v.kind = x.kind := by simpa [Table.kind?, hv] using kind
        simp only [Table.appearance?, Table.get?_modify, if_true, same, hv, Option.map_some,
          denotes.appearance_foldInto hk]
        rfl
      · rw [kind]
        cases x <;> simp [Value.kind, Value.matrix?] at scalar ⊢
    · have before := follows.linked h
        (.inr ⟨fun eq => other (by simp_all [computes.output]), live⟩)
      have unchanged : (w.modify o (·.foldInto e.text e.precedence)).appearance? h = w.appearance? h :=
        Table.appearance?_congr (by rw [Table.get?_modify, if_neg other])
      cases before with
      | bound appearance value =>
          exact .bound (unchanged.trans appearance) (by simp [other, value])
      | folded a y appearance plain value scalar literal clean =>
          exact .folded a y appearance plain (by simp [other, value]) scalar
            (unchanged.trans literal) clean

/-- A run of what folding leaves gets as far as the run of the whole program. -/
theorem Follows.advance {m m' : Machine} (r : Reduces w is is' t') (foldable : Foldable t out is)
    (folded : FoldedFrom t w is) (follows : Follows t w (Live t out is) m m') :
    ∃ w', Reduces w' (Machine.advance t is m).2 (Machine.advance t' is' m').2 t' ∧
      ((Machine.advance t is m).2 = [] ↔ (Machine.advance t' is' m').2 = []) ∧
      FoldedFrom t w' (Machine.advance t is m).2 ∧
      Follows t w' (Live t out (Machine.advance t is m).2) (Machine.advance t is m).1
        (Machine.advance t' is' m').1 := by
  induction r generalizing m m' with
  | nil w => exact ⟨w, .nil w, by simp [Machine.advance], folded, follows⟩
  | @keep w t' is is' i r ih =>
      obtain ⟨same, next⟩ := follows.keep r foldable folded
      simp only [Machine.advance, same]
      cases he : (i.evaluate t m).toOption with
      | none => exact ⟨w, .keep i r, by simp, folded, follows⟩
      | some e => exact ih foldable.tail folded.tail (next e he)
  | @fold w t' is is' i o e computes text r ih =>
      obtain ⟨x, amounts, literal⟩ := text
      have evaluated := follows.evaluate amounts folded
      obtain ⟨folded', follows'⟩ :=
        follows.fold computes ⟨e, literal, rfl⟩ evaluated foldable folded
      simp only [Machine.advance, evaluated]
      exact ih foldable.tail folded' follows'

theorem Follows.refl {m : Machine} (p : Handle → Prop) (kinded : m.store.WellKinded t) :
    Follows t t p m m :=
  ⟨fun _ _ => .bound rfl rfl, rfl, kinded, kinded⟩

/-- What is not a temporary has the same value in both machines. -/
theorem Follows.get?_eq {p : Handle → Prop} {m m' : Machine} (follows : Follows t w p m m')
    (folded : FoldedFrom t w is) {h : Handle} (hp : p h) (user : ¬t.IsTemporary h) :
    m'.store.get? h = m.store.get? h := by
  cases follows.linked h hp with
  | bound appearance value => exact value
  | folded a x appearance plain value scalar literal clean =>
      have same := Table.appearance?_congr (folded.kept h (.inl user))
      rw [literal, appearance, Option.some.injEq] at same
      rw [← same] at plain
      cases plain

/-- A program and what folding leaves of it end alike. -/
theorem Reduces.advance_eq {m : Machine} (r : Reduces t is is' t') (foldable : Foldable t out is)
    (kinded : m.store.WellKinded t) :
    ((Machine.advance t is m).2 = [] ↔ (Machine.advance t' is' m).2 = []) ∧
      (Machine.advance t' is' m).1.generator = (Machine.advance t is m).1.generator ∧
      ∀ h, ¬t.IsTemporary h → Live t out (Machine.advance t is m).2 h →
        (Machine.advance t' is' m).1.store.get? h = (Machine.advance t is m).1.store.get? h := by
  obtain ⟨w, -, done, folded, follows⟩ :=
    Follows.advance r foldable ⟨fun _ => rfl, fun _ _ => rfl⟩ (.refl _ kinded)
  exact ⟨done, follows.generator, fun h user live => follows.get?_eq folded live user⟩

end Simulation
end MatrixCode
