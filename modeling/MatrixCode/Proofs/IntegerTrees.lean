import MatrixCode.Proofs.Accounting
import MatrixCode.Proofs.Dispatch
import MatrixCode.Proofs.Repetition
import MatrixCode.Proofs.Selections

/-!
Expressions over integer literals. Every instruction of such an expression stands for a subtree,
and it is folded away exactly when the subtree has a value in checked arithmetic; the folder is
never asked. An operand that has no value blocks the instructions above it and no others.
-/

namespace MatrixCode

theorem forall_mem_of_forall₂ {α β : Type} {R : α → β → Prop} {p : α → Prop}
    {as : List α} {bs : List β} (related : List.Forall₂ R as bs) (each : ∀ a b, R a b → p a) :
    ∀ a ∈ as, p a :=
  ((List.forall₂_and_left _ _).mp (related.imp fun a b h => ⟨each a b h, h⟩)).1

inductive IntegerTree.Operator where
  | add
  | subtract
  | multiply
  | divide
  deriving DecidableEq, Repr

/-- An expression over integer literals. -/
inductive IntegerTree where
  | literal (n : Int64)
  | negate (a : IntegerTree)
  | binary (op : IntegerTree.Operator) (a b : IntegerTree)
  deriving DecidableEq, Repr

namespace IntegerTree

def Operator.primitive : Operator → Primitive
  | add => .add
  | subtract => .subtract
  | multiply => .multiply
  | divide => .divide

/-- Checked arithmetic; division goes toward zero. -/
def Operator.apply? : Operator → Int64 → Int64 → Option Int64
  | add => Word.add?
  | subtract => Word.sub?
  | multiply => Word.mul?
  | divide => Word.div?

/-- The value of the expression, if all its parts have one. -/
def value? : IntegerTree → Option Int64
  | literal n => some n
  | negate a => a.value?.bind Word.neg?
  | binary op a b => a.value?.bind fun x => b.value?.bind fun y => op.apply? x y

def operands : IntegerTree → List IntegerTree
  | literal _ => []
  | negate a => [a]
  | binary _ a b => [a, b]

/-- The form of the instruction for the root. -/
def form? : IntegerTree → Option Form
  | literal _ => none
  | negate _ => some ⟨.negate, .i, .integer, []⟩
  | binary op _ _ => some ⟨op.primitive, .ii, .integer, []⟩

/-- What is asked for to compute the root from variables for its operands. -/
def request? : IntegerTree → List Handle → Option Request
  | negate _, [k] => some (.unary .negate k)
  | binary op _ _, [j, k] => some (.binary op.primitive j k)
  | _, _ => none

/-- A part of an expression, or all of it. -/
inductive Within : IntegerTree → IntegerTree → Prop where
  | refl (a : IntegerTree) : Within a a
  | operand {a b c : IntegerTree} (part : Within a b) (mem : b ∈ c.operands) : Within a c

theorem value?_eq {tree : IntegerTree} {form : Form} (h : tree.form? = some form) :
    tree.value? = (tree.operands.mapM value?).bind form.primitive.onWords := by
  cases tree with
  | literal n => cases h
  | negate a =>
      cases h
      simp only [value?, operands, List.mapM_cons, List.mapM_nil]
      cases a.value? <;> rfl
  | binary op a b =>
      cases h
      simp only [value?, operands, List.mapM_cons, List.mapM_nil]
      cases op <;> cases a.value? <;> cases b.value? <;> rfl

/-- With an expression all its parts have a value. -/
theorem Within.isSome_value? {a tree : IntegerTree} (within : Within a tree)
    (h : tree.value?.isSome) : a.value?.isSome := by
  induction within with
  | refl => exact h
  | @operand b c part mem ih =>
      apply ih
      cases c with
      | literal n => cases mem
      | negate a =>
          obtain rfl := List.mem_singleton.mp mem
          exact Option.isSome_of_isSome_bind h
      | binary op a b =>
          obtain ⟨v, hv⟩ := Option.isSome_iff_exists.mp h
          obtain ⟨x, hx, hv⟩ := Option.bind_eq_some_iff.mp hv
          obtain ⟨y, hy, -⟩ := Option.bind_eq_some_iff.mp hv
          rcases List.mem_pair.mp mem with rfl | rfl
          · simp [hx]
          · simp [hy]

theorem operands_ne_nil {tree : IntegerTree} {form : Form} (h : tree.form? = some form) :
    tree.operands ≠ [] := by
  cases tree with
  | literal n => cases h
  | negate a | binary op a b => simp [operands]

theorem isClosed_instruction {tree : IntegerTree} {form : Form} (h : tree.form? = some form)
    (ks : List Handle) (o : Handle) : Folding.isClosed (form.instruction ks o) := by
  cases tree with
  | literal n => cases h
  | negate a =>
      cases h
      rfl
  | binary op a b =>
      cases h
      cases op <;> rfl

end IntegerTree

/-- The variable is a literal with the value; without one it is an integer temporary as it was
made. -/
def Table.Shows (t : Table) (h : Handle) (value : Option Int64) : Prop :=
  ∃ v, t.get? h = some v ∧ v.kind = .integer ∧ match value with
    | some x => v.temporary = false ∧ v.constant = true ∧ v.literalInteger? = some x
    | none => v.temporary = true ∧ v.constant = false

namespace Table.Shows

variable {t : Table} {h : Handle} {value : Option Int64} {x : Int64}

theorem isSome (s : t.Shows h value) : (t.get? h).isSome := by
  obtain ⟨v, hv, -⟩ := s
  simp [hv]

theorem kind? (s : t.Shows h value) : t.kind? h = some .integer := by
  obtain ⟨v, hv, kind, -⟩ := s
  simp [Table.kind?, hv, kind]

theorem literalInteger? (s : t.Shows h (some x)) :
    ¬t.IsTemporary h ∧ t.literalInteger? h = some x := by
  obtain ⟨v, hv, -, user, -, value⟩ := s
  refine ⟨?_, by simpa [Table.literalInteger?, appearance?, hv, Variable.appearance] using value⟩
  rintro ⟨u, hu, temporary⟩
  obtain rfl := Option.some.inj (hv.symm.trans hu)
  simp [user] at temporary

theorem isTemporary (s : t.Shows h none) : t.IsTemporary h := by
  obtain ⟨v, hv, -, temporary, -⟩ := s
  exact ⟨v, hv, temporary⟩

theorem isTemporary_iff (s : t.Shows h value) : t.IsTemporary h ↔ value = none := by
  cases value with
  | none => exact iff_of_true s.isTemporary rfl
  | some x => exact iff_of_false s.literalInteger?.1 (Option.some_ne_none x)

theorem congr {t' : Table} (s : t.Shows h value) (same : t'.get? h = t.get? h) : t'.Shows h value := by
  obtain ⟨v, hv, rest⟩ := s
  exact ⟨v, same.trans hv, rest⟩

theorem of_integerLiteral (entry : t.get? h = some (.integerLiteral x)) : t.Shows h (some x) :=
  ⟨_, entry, rfl, rfl, rfl, Variable.literalInteger?_integerLiteral x⟩

theorem of_nextTemporary {created : Counts}
    (entry : t.get? h = some (Workspace.nextTemporary created .integer)) : t.Shows h none :=
  ⟨_, entry, rfl, rfl, rfl⟩

/-- A temporary that becomes the text of a value shows the value. -/
theorem foldInto (s : t.Shows h none) (x : Int64) :
    (t.modify h (·.foldInto (ScalarText.integer x).text (ScalarText.integer x).precedence)).Shows h
      (some x) := by
  obtain ⟨v, hv, kind, -⟩ := s
  have literal : Machine.literal? (.integer x) = some (.integer x) := rfl
  refine ⟨v.foldInto _ _, by rw [get?_modify, if_pos rfl, hv]; rfl, kind, rfl,
    Variable.constant_foldInto literal, ?_⟩
  exact congrArg Appearance.integer? (Variable.appearance_foldInto kind literal)

/-- A policy that folds knows exactly what shows a value. -/
theorem any_knows (s : t.Shows h value) {policy : Policy} (folds : policy.folds) :
    (t.get? h).any policy.knows = value.isSome := by
  obtain ⟨v, hv, kind, rest⟩ := s
  rw [Policy.folds] at folds
  cases value with
  | some x => simp_all [Policy.knows, Kind.isScalar]
  | none => simp_all [Policy.knows]

variable {ks : List Handle} {values : List (Option Int64)}

theorem knowsAll (shown : List.Forall₂ t.Shows ks values) {policy : Policy} (folds : policy.folds) :
    policy.knowsAll t ks = (values.mapM id).isSome := by
  induction shown with
  | nil => rfl
  | @cons k value ks values head tail ih =>
      have known := head.any_knows folds
      rw [Policy.knowsAll] at ih ⊢
      rw [List.all_cons, known, ih, List.mapM_cons]
      cases value with
      | none => rfl
      | some x => cases values.mapM id <;> rfl

theorem isSome_of_mem (shown : List.Forall₂ t.Shows ks values) : ∀ k ∈ ks, (t.get? k).isSome :=
  forall_mem_of_forall₂ shown fun _ _ s => s.isSome

theorem mapM_literalInteger? (shown : List.Forall₂ t.Shows ks values) {arguments : List Int64}
    (all : values.mapM id = some arguments) : ks.mapM t.literalInteger? = some arguments := by
  induction shown generalizing arguments with
  | nil => exact all
  | @cons k value ks values head tail ih =>
      rw [List.mapM_cons] at all ⊢
      obtain ⟨x, here, all⟩ := Option.bind_eq_some_iff.mp all
      obtain ⟨xs, rest, rfl⟩ := Option.map_eq_some_iff.mp ((Option.map_eq_bind ..).trans all)
      obtain rfl : value = some x := here
      rw [head.literalInteger?.2, ih rest]
      rfl

end Table.Shows

section Declared

variable {t : Table} {h : Handle} {name : String} (declared : t.get? h = some (.named name .integer))

include declared

theorem Table.kind?_of_declared : t.kind? h = some .integer := by
  simp [kind?, declared, Variable.kind, Variable.named, Content.kind]

theorem Table.not_isTemporary_of_declared : ¬t.IsTemporary h := by
  rintro ⟨v, hv, temporary⟩
  obtain rfl := Option.some.inj (declared.symm.trans hv)
  cases temporary

end Declared

theorem Form.sources_instruction (form : Form) (ks : List Handle) (o : Handle) (t : Table) :
    (form.instruction ks o).sources t = ks := by
  simp [instruction, Instruction.sources, Instruction.items]

namespace Folding

variable {policy : Policy} {t : Table}

/-- What becomes of an integer operation whose operands show values or none. -/
theorem step_of_shows (folds : policy.folds) (folder : Folder) {form : Form} {ks : List Handle}
    {o : Handle} (closed : isClosed (form.instruction ks o)) (operands : ks ≠ [])
    {values : List (Option Int64)} (shown : List.Forall₂ t.Shows ks values) (output : t.Shows o none) :
    step policy folder t (form.instruction ks o) =
      .ok (((values.mapM id).bind form.primitive.onWords).map fun x => (o, .integer x)) := by
  have found := Table.Shows.isSome_of_mem shown
  have plain : (form.instruction ks o).primitive.isRandom = false := by
    unfold isClosed at closed
    split at closed <;> simp_all [Primitive.isRandom]
  have computes : (form.instruction ks o).Computes t o :=
    ⟨rfl, output.isTemporary, ⟨_, output.kind?, rfl⟩, plain, rfl, rfl, operands⟩
  have covered : (form.instruction ks o).Covered t := by
    refine ⟨by simp [Form.instruction], fun h hh => ?_⟩
    rw [computes.mentions, List.mem_append, List.mem_singleton] at hh
    rcases hh with hh | rfl
    · exact found h hh
    · exact output.isSome
  rw [← Outcome.toOption_eq_some]
  obtain ⟨o', computes', same⟩ | ⟨unfit, -⟩ := toOption_step policy folder covered
  case inr => exact absurd computes (unfit o)
  obtain rfl : o = o' := Option.some.inj computes'.output
  rw [same, show (form.instruction ks o).inputs = ks from rfl, Table.Shows.knowsAll shown folds]
  cases all : values.mapM id with
  | none => rfl
  | some arguments =>
      have words : (form.instruction ks o).words? t = some arguments := by
        rw [Instruction.words?, if_pos closed]
        exact Table.Shows.mapM_literalInteger? shown all
      rw [Option.isSome_some, if_pos rfl, Instruction.toOption_expression?_by folder found, words,
        Option.map_some, Option.map_map]
      rfl

end Folding

namespace IntegerTree

/-- The nodes of expressions, each with its instruction. -/
abbrev Nodes := List (IntegerTree × Instruction)

namespace Nodes

def instructions (nodes : Nodes) : List Instruction := nodes.map Prod.snd

/-- The nodes that have no value. -/
def blocked (nodes : Nodes) : Nodes := nodes.filter fun node => node.1.value?.isNone

/-- The number of nodes that have a value. -/
def evaluated (nodes : Nodes) : Nat := nodes.countP fun node => node.1.value?.isSome

end Nodes

/-- The variable stands for the expression: it is the literal, or the output of an instruction for
the expression. -/
inductive Stands (t : Table) (nodes : Nodes) (h : Handle) : IntegerTree → Prop where
  | literal {n : Int64} (entry : t.get? h = some (.integerLiteral n)) : Stands t nodes h (.literal n)
  | output {tree : IntegerTree} {i : Instruction} (listed : (tree, i) ∈ nodes)
      (output : i.output = some h) : Stands t nodes h tree

theorem Stands.mono {t t' : Table} {nodes nodes' : Nodes} {h : Handle} {tree : IntegerTree}
    (s : Stands t nodes h tree) (ext : t.Extends t') (inside : nodes ⊆ nodes') :
    Stands t' nodes' h tree := by
  cases s with
  | literal entry => exact .literal (ext h _ entry)
  | output listed output => exact .output (inside listed) output

/-- A node comes after the nodes of its operands, with a temporary of its own. -/
structure Continues (t : Table) (done : Nodes) (node : IntegerTree × Instruction) : Prop where
  computed : ∃ form ks o, node.1.form? = some form ∧ node.2 = form.instruction ks o ∧
    List.Forall₂ (Stands t done) ks node.1.operands ∧
    (∃ created, t.get? o = some (Workspace.nextTemporary created .integer)) ∧
    o ∉ Instruction.outputs done.instructions

theorem Continues.mono {t t' : Table} {done : Nodes} {node : IntegerTree × Instruction}
    (c : Continues t done node) (ext : t.Extends t') : Continues t' done node := by
  obtain ⟨form, ks, o, hf, hi, operands, ⟨created, made⟩, fresh⟩ := c.computed
  exact ⟨form, ks, o, hf, hi, operands.imp fun _ _ s => s.mono ext (List.Subset.refl _),
    ⟨created, ext o _ made⟩, fresh⟩

end IntegerTree

open IntegerTree (Nodes Stands Continues)

/-- The drafts that come about by requests for the nodes of expressions, in any order in which
operands come first, in a table that may get more entries in between. -/
inductive Draft.Expresses : Draft → Nodes → Prop where
  | start (w : Workspace) : Expresses ⟨w, .empty⟩ []
  | extend {d : Draft} {nodes : Nodes} (expresses : Expresses d nodes) (w : Workspace)
      (ext : d.workspace.table.Extends w.table) : Expresses { d with workspace := w } nodes
  | node {d d' : Draft} {nodes : Nodes} (expresses : Expresses d nodes) {tree : IntegerTree}
      {ks : List Handle} (operands : List.Forall₂ (Stands d.workspace.table nodes) ks tree.operands)
      {r : Request} (asked : tree.request? ks = some r) {o : Handle}
      (ran : Yields (Drafting.apply r.perform) d o d') {i : Instruction}
      (pushed : d'.program.instructions = d.program.instructions ++ [i]) :
      Expresses d' (nodes ++ [(tree, i)])

namespace IntegerTree

variable {t : Table} {nodes : Nodes}

theorem kind?_of_stands (valid : ∀ node ∈ nodes, ∃ o, node.2.output = some o ∧ t.Shows o none)
    {h : Handle} {tree : IntegerTree} (s : Stands t nodes h tree) : t.kind? h = some .integer := by
  cases s with
  | literal entry => simp [Table.kind?, entry, Variable.kind, Variable.integerLiteral, Content.kind]
  | output listed output =>
      obtain ⟨o, written, shows⟩ := valid _ listed
      obtain rfl := Option.some.inj (written.symm.trans output)
      exact shows.kind?

end IntegerTree

namespace Construction

variable {w w' : Workspace}

theorem yields_kindOf {h : Handle} {kind : Kind} (hk : w.table.kind? h = some kind) :
    Yields (kindOf h) w kind w := by
  obtain ⟨v, hv, rfl⟩ := Option.map_eq_some_iff.mp hk
  rw [Yields, kindOf, run_query]
  simp [Table.lookupKind, Table.lookup, hv]

theorem yields_guarded {α : Type} {c : Construction α} {a : α} (ran : Yields c w a w') :
    Yields (guarded c) w a w' := by
  rw [Yields] at ran ⊢
  rw [guarded, ExceptT.run_mk, StateT.run, ran]

end Construction

namespace IntegerTree

variable {t : Table} {nodes : Nodes}

/-- A request for a node makes the instruction in the form for integers. -/
theorem yields_request {tree : IntegerTree} {ks : List Handle} {r : Request}
    (asked : tree.request? ks = some r) {w : Workspace}
    (integers : ∀ k ∈ ks, w.table.kind? k = some .integer) :
    ∃ form, tree.form? = some form ∧
      Yields r.perform w (form.instruction ks ⟨w.table.size⟩) (w.create .integer).2 := by
  unfold request? at asked
  split at asked
  · next a k =>
      cases asked
      have hk := Construction.yields_kindOf (integers k (by simp))
      exact ⟨_, rfl, Construction.yields_guarded (hk.bind rfl)⟩
  · next op a b j k =>
      cases asked
      have hj := Construction.yields_kindOf (integers j (by simp))
      have hk := Construction.yields_kindOf (integers k (by simp))
      have screened : Yields (Construction.screened op.primitive j k) w op.primitive w := by
        cases op with
        | add | subtract | multiply => rfl
        | divide => exact hj.bind (hk.bind rfl)
      refine ⟨_, rfl, screened.bind (Construction.yields_guarded (hj.bind (hk.bind ?_)))⟩
      cases op <;> rfl
  · cases asked

theorem Continues.shows {done : Nodes} {node : IntegerTree × Instruction}
    (c : Continues t done node) : ∃ o, node.2.output = some o ∧ t.Shows o none := by
  obtain ⟨form, ks, o, -, hi, -, ⟨created, made⟩, -⟩ := c.computed
  exact ⟨o, by rw [hi]; rfl, .of_nextTemporary made⟩

theorem valid_of_continues
    (continues : ∀ done node rest, nodes = done ++ node :: rest → Continues t done node) :
    ∀ node ∈ nodes, ∃ o, node.2.output = some o ∧ t.Shows o none := by
  intro node hn
  obtain ⟨done, rest, split⟩ := List.append_of_mem hn
  exact (continues done node rest split).shows

end IntegerTree

namespace Draft.Expresses

variable {d : Draft} {nodes : Nodes}

/-- The instructions are those of the nodes, and each node comes after its operands. -/
theorem spec (e : d.Expresses nodes) : d.program.instructions = nodes.instructions ∧
    ∀ done node rest, nodes = done ++ node :: rest → Continues d.workspace.table done node := by
  induction e with
  | start w => exact ⟨rfl, by simp⟩
  | extend _ w ext ih => exact ⟨ih.1, fun done node rest split => (ih.2 done node rest split).mono ext⟩
  | @node d d' nodes _ tree ks operands r asked o ran i pushed ih =>
      obtain ⟨instructions, continues⟩ := ih
      obtain ⟨i', w, made, output, rfl⟩ := Drafting.of_apply ran
      obtain rfl : i' = i := by simpa [Program.push] using pushed
      have shows := IntegerTree.valid_of_continues continues
      have integers : ∀ k ∈ ks, d.workspace.table.kind? k = some .integer :=
        forall_mem_of_forall₂ operands fun _ _ s => IntegerTree.kind?_of_stands shows s
      obtain ⟨form, hf, ran'⟩ := IntegerTree.yields_request asked integers
      obtain ⟨rfl, rfl⟩ := made.eq_and_eq ran'
      have ext := d.workspace.extends_create .integer
      refine ⟨by rw [pushed, instructions]; simp [Nodes.instructions], fun done node rest split => ?_⟩
      rcases List.eq_nil_or_concat' rest with rfl | ⟨rest, last, rfl⟩
      · obtain ⟨rfl, same⟩ := List.append_inj' split rfl
        obtain rfl := List.singleton_inj.mp same
        refine ⟨form, ks, _, hf, rfl, operands.imp fun _ _ s => s.mono ext (List.Subset.refl _),
          ⟨d.workspace.temporaries.created, ?_⟩, fun hm => ?_⟩
        · rw [Workspace.get?_create, if_pos rfl]
        · obtain ⟨j, hj, written⟩ := Instruction.mem_outputs.mp hm
          obtain ⟨node, hn, rfl⟩ := List.mem_map.mp hj
          obtain ⟨o, output, shows⟩ := shows node hn
          obtain rfl := Option.some.inj (output.symm.trans written)
          have found := shows.isSome
          simp [d.workspace.get?_of_fresh] at found
      · have split' : nodes = done ++ node :: rest := by
          rw [← List.cons_append, ← List.append_assoc] at split
          exact (List.append_inj' split rfl).1
        exact (continues done node rest split').mono ext

end Draft.Expresses

/-- The table after the first nodes: their outputs show what they have for a value, and nothing
else has changed. -/
structure Table.Reflects (t : Table) (done : Nodes) (t' : Table) : Prop where
  shown : ∀ node ∈ done, ∀ o, node.2.output = some o → t'.Shows o node.1.value?
  others : ∀ h, h ∉ Instruction.outputs done.instructions → t'.get? h = t.get? h

namespace Table.Reflects

variable {t t' : Table} {done : Nodes}

theorem nil (t : Table) : t.Reflects [] t := ⟨by simp, fun _ _ => rfl⟩

/-- What stands for an expression shows its value. -/
theorem shows (r : t.Reflects done t') (valid : ∀ node ∈ done, ∃ o, node.2.output = some o ∧ t.Shows o none)
    {h : Handle} {tree : IntegerTree} (s : Stands t done h tree) : t'.Shows h tree.value? := by
  cases s with
  | @literal n entry =>
      refine Table.Shows.of_integerLiteral ((r.others h fun hm => ?_).trans entry)
      obtain ⟨j, hj, written⟩ := Instruction.mem_outputs.mp hm
      obtain ⟨node, hn, rfl⟩ := List.mem_map.mp hj
      obtain ⟨o, output, shows⟩ := valid node hn
      obtain rfl := Option.some.inj (output.symm.trans written)
      exact (Table.Shows.of_integerLiteral entry).literalInteger?.1 shows.isTemporary
  | output listed output => exact r.shown _ listed h output

/-- One more node, whose output shows its value. -/
theorem snoc (r : t.Reflects done t') {node : IntegerTree × Instruction} {o : Handle}
    (output : node.2.output = some o) (fresh : o ∉ Instruction.outputs done.instructions) {t'' : Table}
    (here : t''.Shows o node.1.value?) (same : ∀ h, h ≠ o → t''.get? h = t'.get? h) :
    t.Reflects (done ++ [node]) t'' where
  shown node' hn o' ho' := by
    rcases List.mem_append.mp hn with hn | hn
    · refine (r.shown node' hn o' ho').congr (same o' ?_)
      rintro rfl
      exact fresh (Instruction.mem_outputs.mpr ⟨node'.2, List.mem_map_of_mem hn, ho'⟩)
    · obtain rfl := List.mem_singleton.mp hn
      obtain rfl := Option.some.inj (output.symm.trans ho')
      exact here
  others h hh := by
    have split : Instruction.outputs (Nodes.instructions (done ++ [node])) =
        Instruction.outputs done.instructions ++ [o] := by
      simp [Nodes.instructions, output]
    rw [split, List.mem_append, not_or, List.mem_singleton] at hh
    rw [same h hh.2, r.others h hh.1]

end Table.Reflects

namespace Folding

variable {policy : Policy} {t : Table} {nodes : Nodes}

theorem run_cons_of_kept {folder : Folder} {w : Workspace} {i : Instruction} {is : List Instruction}
    (more : is ≠ []) (kept : step policy folder w.table i = .ok none) :
    run policy folder w (i :: is) =
      { run policy folder w is with instructions := i :: (run policy folder w is).instructions } := by
  cases is with
  | nil => exact absurd rfl more
  | cons next rest => rw [run, kept]

theorem run_cons_of_folded {folder : Folder} {w : Workspace} {i : Instruction} {is : List Instruction}
    (more : is ≠ []) {o : Handle} {e : ScalarText}
    (folded : step policy folder w.table i = .ok (some (o, e))) :
    run policy folder w (i :: is) = { run policy folder (w.fold o e) is with
      removed := (run policy folder (w.fold o e) is).removed + 1 } := by
  cases is with
  | nil => exact absurd rfl more
  | cons next rest => rw [run, folded]

/-- Folding goes through the nodes, from those that are done to the last instruction. -/
theorem run_nodes (folds : policy.folds)
    (continues : ∀ done node rest, nodes = done ++ node :: rest → Continues t done node)
    (last : Instruction) (rest done : Nodes) (split : nodes = done ++ rest) (w : Workspace)
    (reflects : t.Reflects done w.table) :
    ∃ w', t.Reflects nodes w'.table ∧ ∀ folder, run policy folder w (rest.instructions ++ [last]) =
      ⟨rest.blocked.instructions ++ [last], w', rest.evaluated, none⟩ := by
  -- The nodes that are done grow by one, and the table reflects what they have become.
  induction rest generalizing done w with
  | nil =>
      obtain rfl : nodes = done := by simpa using split
      exact ⟨w, reflects, fun _ => rfl⟩
  | cons node rest ih =>
      obtain ⟨form, ks, o, hf, hi, operands, ⟨created, made⟩, fresh⟩ :=
        (continues done node rest split).computed
      have valid : ∀ node ∈ done, ∃ o, node.2.output = some o ∧ t.Shows o none := fun node' hn =>
        IntegerTree.valid_of_continues continues node' (by simp [split, hn])
      have shown : List.Forall₂ w.table.Shows ks (node.1.operands.map IntegerTree.value?) :=
        List.forall₂_map_right_iff.mpr (operands.imp fun _ _ s => reflects.shows valid s)
      have output : w.table.Shows o none :=
        (Table.Shows.of_nextTemporary made).congr (reflects.others o fresh)
      have closed := IntegerTree.isClosed_instruction hf ks o
      have nonempty : ks ≠ [] := by
        rintro rfl
        exact IntegerTree.operands_ne_nil hf (List.forall₂_nil_left_iff.mp operands)
      have step (folder : Folder) : step policy folder w.table node.2 =
          .ok (node.1.value?.map fun x => (o, .integer x)) := by
        rw [hi, step_of_shows folds folder closed nonempty shown output, IntegerTree.value?_eq hf,
          List.mapM_map]
        rfl
      have written : node.2.output = some o := by rw [hi]; rfl
      have split' : nodes = (done ++ [node]) ++ rest := by simp [split]
      have more : Nodes.instructions rest ++ [last] ≠ [] := by simp
      cases value : node.1.value? with
      | none =>
          rw [value] at step
          obtain ⟨w', after, ran⟩ := ih (done ++ [node]) split' w
            (reflects.snoc written fresh (value ▸ output) fun _ _ => rfl)
          refine ⟨w', after, fun folder => ?_⟩
          change run policy folder w (node.2 :: (Nodes.instructions rest ++ [last])) = _
          rw [run_cons_of_kept more (step folder), ran]
          simp [Nodes.blocked, Nodes.evaluated, Nodes.instructions, value]
      | some x =>
          rw [value] at step
          obtain ⟨w', after, ran⟩ := ih (done ++ [node]) split' (w.fold o (.integer x))
            (reflects.snoc written fresh (value ▸ table_fold w o _ ▸ output.foldInto x) fun h other => by
              rw [table_fold, Table.get?_modify, if_neg other])
          refine ⟨w', after, fun folder => ?_⟩
          change run policy folder w (node.2 :: (Nodes.instructions rest ++ [last])) = _
          rw [run_cons_of_folded more (step folder), ran]
          simp [Nodes.blocked, Nodes.evaluated, Nodes.instructions, value]

end Folding

namespace IntegerTree

/-- The copy of an integer. -/
def copied (source target : Handle) : Instruction :=
  Construction.copying ⟨.copy, .ii, .integer, []⟩ source target none

end IntegerTree

namespace Draft.Expresses

variable {d d₁ : Draft} {nodes : Nodes} {tree : IntegerTree} {root target : Handle} {name : String}

theorem valid (e : d.Expresses nodes) :
    ∀ node ∈ nodes, ∃ o, node.2.output = some o ∧ d.workspace.table.Shows o none :=
  IntegerTree.valid_of_continues e.spec.2

/-- A node reads what stands for its operands. -/
theorem sources (e : d.Expresses nodes) {node : IntegerTree × Instruction} (hn : node ∈ nodes)
    (t : Table) {k : Handle} (hk : k ∈ node.2.sources t) : ∃ a, Stands d.workspace.table nodes k a := by
  obtain ⟨done, rest, rfl⟩ := List.append_of_mem hn
  obtain ⟨form, ks, o, -, hi, operands, -⟩ := (e.spec.2 done node rest rfl).computed
  rw [hi, Form.sources_instruction] at hk
  have each : ∀ k ∈ ks, ∃ a, Stands d.workspace.table done k a :=
    forall_mem_of_forall₂ operands fun _ a s => ⟨a, s⟩
  obtain ⟨a, s⟩ := each k hk
  exact ⟨a, s.mono (fun _ _ => id) (List.subset_append_left _ _)⟩

theorem isSome_get? (e : d.Expresses nodes) {h : Handle} {a : IntegerTree}
    (s : Stands d.workspace.table nodes h a) : (d.workspace.table.get? h).isSome :=
  Table.isSome_get?_of_kind? (IntegerTree.kind?_of_stands e.valid s)

theorem covered (e : d.Expresses nodes) :
    ∀ i ∈ d.program.instructions, i.Covered d.workspace.table := by
  intro i hi
  rw [e.spec.1] at hi
  obtain ⟨node, hn, rfl⟩ := List.mem_map.mp hi
  obtain ⟨o, output, shows⟩ := e.valid node hn
  have plain : node.2.range = none := by
    obtain ⟨done, rest, rfl⟩ := List.append_of_mem hn
    obtain ⟨form, ks, o, -, hi, -⟩ := (e.spec.2 done node rest rfl).computed
    rw [hi]
    rfl
  refine ⟨by simp [plain], fun h hh => ?_⟩
  rw [Instruction.mentions, output, List.mem_append] at hh
  rcases hh with read | written
  · obtain ⟨a, s⟩ := e.sources hn _ read
    exact e.isSome_get? s
  · obtain rfl : h = o := by simpa using written
    exact shows.isSome

/-- A variable of the user stands for no expression. -/
theorem ne_of_declared (e : d.Expresses nodes)
    (declared : d.workspace.table.get? target = some (.named name .integer)) {h : Handle}
    {a : IntegerTree} (s : Stands d.workspace.table nodes h a) : h ≠ target := by
  rintro rfl
  cases s with
  | literal entry =>
      have same := Option.some.inj (declared.symm.trans entry)
      exact absurd (congrArg Variable.constant same) (by simp [Variable.named, Variable.integerLiteral])
  | output listed output =>
      obtain ⟨o, written, shows⟩ := e.valid _ listed
      obtain rfl := Option.some.inj (written.symm.trans output)
      exact Table.not_isTemporary_of_declared declared shows.isTemporary

theorem notMem_outputs (e : d.Expresses nodes)
    (declared : d.workspace.table.get? target = some (.named name .integer)) :
    target ∉ Instruction.outputs nodes.instructions := by
  intro hm
  obtain ⟨j, hj, written⟩ := Instruction.mem_outputs.mp hm
  obtain ⟨node, hn, rfl⟩ := List.mem_map.mp hj
  exact e.ne_of_declared declared (.output hn written) rfl

/-- The instruction that assigns an expression to an integer copies an integer. -/
theorem eq_copied (e : d.Expresses nodes) (stands : Stands d.workspace.table nodes root tree)
    (declared : d.workspace.table.get? target = some (.named name .integer)) {i : Instruction}
    (copies : i.Copies d.workspace.table root target) : i = IntegerTree.copied root target := by
  obtain ⟨left, right, form, source, copied, chosen, rfl⟩ := copies.form
  obtain rfl := Option.some.inj ((IntegerTree.kind?_of_stands e.valid stands).symm.trans source)
  obtain rfl := Option.some.inj ((Table.kind?_of_declared declared).symm.trans copied)
  cases chosen
  rfl

/-- Folding leaves the nodes that have no value, whatever the folder. -/
theorem exists_foldConstants (e : d.Expresses nodes) {policy : Policy} (folds : policy.folds)
    (workspace : d₁.workspace = d.workspace) {last : Instruction}
    (pushed : d₁.program.instructions = d.program.instructions ++ [last])
    (covered : ∀ i ∈ d₁.program.instructions, i.Covered d₁.workspace.table) :
    ∃ d', d'.program.instructions = nodes.blocked.instructions ++ [last] ∧
      d.workspace.table.Reflects nodes d'.workspace.table ∧
      (∀ i ∈ d'.program.instructions, i.Covered d'.workspace.table) ∧
      ∀ folder, Yields (Drafting.foldConstants policy folder) d₁ nodes.evaluated d' := by
  obtain ⟨w, reflects, folded⟩ :=
    Folding.run_nodes folds e.spec.2 last nodes [] rfl d.workspace (.nil _)
  rw [← e.spec.1, ← pushed, ← workspace] at folded
  refine ⟨⟨w, ⟨nodes.blocked.instructions ++ [last], d₁.program.output⟩⟩, rfl, reflects, ?_, ?_⟩
  · have after : d₁.foldedBy policy .declining =
        ⟨w, ⟨nodes.blocked.instructions ++ [last], d₁.program.output⟩⟩ := by
      simp [foldedBy, folded]
    rw [← after]
    obtain ⟨kept, content, -⟩ := d₁.foldedBy_spec policy .declining
    exact fun i hi => (covered i (kept hi)).congr content
  · intro folder
    rw [Yields, Drafting.run_foldConstants]
    simp [foldedBy, folded]

/-- The final copy of an expression is dropped exactly when the expression has no value. -/
theorem exists_dropTrailingCopy (e : d.Expresses nodes)
    (stands : Stands d.workspace.table nodes root tree)
    (declared : d.workspace.table.get? target = some (.named name .integer))
    (split : d₁.program.instructions = nodes.blocked.instructions ++ [IntegerTree.copied root target])
    (reflects : d.workspace.table.Reflects nodes d₁.workspace.table)
    (covered : ∀ i ∈ d₁.program.instructions, i.Covered d₁.workspace.table) :
    ∃ b d' d₂ f, Yields Drafting.dropTrailingCopy d₁ b d' ∧ d₂.workspace = d₁.workspace ∧
      d₂.program.instructions = nodes.blocked.instructions ++
        (if tree.value?.isSome then [IntegerTree.copied root target] else []) ∧
      Relabels f d₂ d' ∧ ∀ i ∈ d'.program.instructions, i.Covered d'.workspace.table := by
  have shows := reflects.shows e.valid stands
  have entry := (reflects.others target (e.notMem_outputs declared)).trans declared
  have kind := Table.kind?_of_declared entry
  have searchable := Program.searchable_of_covered covered
  cases value : tree.value? with
  | none =>
      rw [value] at shows
      have ends : d₁.program.EndsInCopy d₁.workspace.table nodes.blocked.instructions
          (IntegerTree.copied root target) root target := by
        refine ⟨split, rfl, rfl, rfl, shows.isTemporary, Table.not_isTemporary_of_declared entry,
          shows.kind?.trans kind.symm, fun i hi read => ?_⟩
        obtain ⟨node, hn, rfl⟩ := List.mem_map.mp hi
        obtain ⟨a, s⟩ := e.sources (List.mem_of_mem_filter hn) _ read
        exact e.ne_of_declared declared s rfl
      have copies : (IntegerTree.copied root target).Copies d₁.workspace.table root target :=
        ⟨_, _, _, shows.kind?, kind, rfl, rfl⟩
      refine ⟨true, _, d₁.withoutLast, _,
        (Drafting.yields_query (ends.toOption_trailingCopy? searchable)).bind rfl, rfl,
        by simp [withoutLast, split],
        (renamedBy_drop copies).relabels (fixed_of_isTemporary shows.isTemporary target),
        covered_drop ends copies covered⟩
  | some x =>
      rw [value] at shows
      refine ⟨false, d₁, d₁, id, ?_, rfl, split, .refl _, covered⟩
      obtain ⟨body, last, source, target', ends, -⟩ | ⟨-, kept⟩ :=
        Drafting.yields_dropTrailingCopy searchable
      · obtain ⟨rfl, same⟩ := List.append_inj' (split.symm.trans ends.split) rfl
        obtain rfl := List.singleton_inj.mp same
        obtain rfl : root = source := Option.some.inj ends.input
        exact absurd ends.temporary shows.literalInteger?.1
      · exact kept

/-- An expression over integer literals that is assigned to a variable of the user. -/
theorem optimize_assign (expresses : d.Expresses nodes)
    (stands : Stands d.workspace.table nodes root tree) (within : ∀ node ∈ nodes, node.1.Within tree)
    (declared : d.workspace.table.get? target = some (.named name .integer))
    (ran : Yields (Drafting.assign root target) d () d₁) {policy : Policy} (folds : policy.folds) :
    ∃ report d' f, (∀ folder, Yields (Drafting.optimize policy folder) d₁ report d') ∧
      report.removedConstants = nodes.evaluated ∧
      d'.program.instructions = (nodes.blocked.instructions ++
        if tree.value?.isSome then [IntegerTree.copied root target] else []).map (.rename f) ∧
      (∀ h, ¬d'.workspace.table.IsTemporary h → f h = h) ∧
      (∀ node ∈ nodes, ∀ o, node.2.output = some o →
        (d'.workspace.table.IsTemporary o ↔ node.1.value? = none) ∧
        ∀ x, node.1.value? = some x → d'.workspace.table.literalInteger? o = some x) ∧
      ∀ x, tree.value? = some x → d'.program.instructions = [IntegerTree.copied root target] ∧
        d'.workspace.table.literalInteger? root = some x := by
  obtain ⟨i, copies, rfl⟩ := Drafting.of_assign ran
  obtain rfl := expresses.eq_copied stands declared copies
  set d₁ : Draft :=
    ⟨d.workspace, { d.program.push (IntegerTree.copied root target) with output := some target }⟩
  have covered : ∀ i ∈ d₁.program.instructions, i.Covered d₁.workspace.table := by
    intro j hj
    rcases List.mem_append.mp hj with hj | hj
    · exact expresses.covered j hj
    · obtain rfl := List.mem_singleton.mp hj
      refine ⟨by simp [copies.range], fun h hh => ?_⟩
      rw [copies.mentions] at hh
      rcases List.mem_pair.mp hh with rfl | rfl
      · exact expresses.isSome_get? stands
      · exact Option.isSome_iff_exists.mpr ⟨_, declared⟩
  obtain ⟨d₂, split, reflects, covered₂, folded⟩ :=
    expresses.exists_foldConstants folds (show d₁.workspace = d.workspace from rfl) rfl covered
  obtain ⟨b, d₃, d₂', f, dropped, workspace, shorter, relabels, covered₃⟩ :=
    expresses.exists_dropTrailingCopy stands declared split reflects covered₂
  obtain ⟨n₁, n₂, n₃, d₄, d₅, d', g, first, second, third, relabels', covered'⟩ :=
    Drafting.exists_shareTemporaries covered₃
  obtain ⟨before, counted⟩ := Drafting.exists_query (Program.isSome_countTemporaries covered)
  obtain ⟨after, recounted⟩ := Drafting.exists_query (Program.isSome_countTemporaries covered')
  -- The passes after folding rename temporaries, so every value is still shown.
  have renamed := relabels.trans relabels'
  have literal {h : Handle} {x : Int64} (s : d₂.workspace.table.Shows h (some x)) :
      d'.workspace.table.literalInteger? h = some x := by
    rw [Table.literalInteger?, renamed.appearance, workspace]
    exact s.literalInteger?.2
  refine ⟨_, d', g ∘ f, fun folder => Drafting.optimize_of_passes counted (folded folder) dropped
    first second third recounted, rfl, by rw [renamed.instructions, shorter],
    fun h user => renamed.fixed h fun temporary => user ((renamed.temporary h).mpr temporary), ?_, ?_⟩
  · intro node hn o written
    have shown := reflects.shown node hn o written
    exact ⟨by rw [renamed.temporary, workspace]; exact shown.isTemporary_iff,
      fun x value => literal (value ▸ shown)⟩
  · intro x value
    have shown := reflects.shows expresses.valid stands
    rw [value] at shown
    refine ⟨?_, literal shown⟩
    have complete : nodes.blocked = [] := List.filter_eq_nil_iff.mpr fun node hn => by
      simp [Option.isSome_iff_ne_none.mp ((within node hn).isSome_value? (by simp [value]))]
    have entry := (reflects.others target (expresses.notMem_outputs declared)).trans declared
    rw [← workspace] at entry shown
    rw [renamed.instructions, shorter, complete, value, Option.isSome_some, if_pos rfl]
    change [IntegerTree.copied ((g ∘ f) root) ((g ∘ f) target)] = _
    rw [renamed.fixed root shown.literalInteger?.1,
      renamed.fixed target (Table.not_isTemporary_of_declared entry)]

end Draft.Expresses

/-- Where the table remembers an integer literal, it has it. -/
def Table.Interned (t : Table) : Prop :=
  ∀ n h, t.literals.lookup (LiteralName.integer n) = some h → t.get? h = some (.integerLiteral n)

theorem LiteralName.integer_injective : Function.Injective LiteralName.integer := by
  intro m n same
  have read (x : Int64) : (Variable.named (LiteralName.integer x) .integer).literalInteger? = some x :=
    Variable.literalInteger?_integerLiteral x
  exact Option.some.inj ((read m).symm.trans (same ▸ read n))

namespace Table.Interned

variable {t : Table} {w : Workspace}

theorem integer (interned : t.Interned) (n : Int64) :
    (t.integer n).2.Interned ∧ t.Extends (t.integer n).2 ∧
      (t.integer n).2.get? (t.integer n).1 = some (.integerLiteral n) := by
  have name (m : Int64) : (Variable.integerLiteral m).name = LiteralName.integer m := rfl
  unfold Table.integer Table.intern
  rw [name]
  cases found : t.literals.lookup (LiteralName.integer n) with
  | some h => exact ⟨interned, fun _ _ => id, interned n h found⟩
  | none =>
      have ext := t.extends_add (.integerLiteral n)
      have here : (t.add (.integerLiteral n)).2.get? ⟨t.size⟩ = some (.integerLiteral n) := by
        rw [Table.get?_add, if_pos rfl]
      refine ⟨fun m h known => ?_, ext, here⟩
      rw [List.lookup_cons] at known
      split at known
      · next same =>
          obtain rfl := LiteralName.integer_injective (beq_iff_eq.mp same)
          obtain rfl := Option.some.inj known
          exact here
      · exact ext h _ (interned m h known)

theorem create (interned : w.table.Interned) (kind : Kind) : (w.create kind).2.table.Interned :=
  fun n h known => w.extends_create kind h _ (interned n h known)

end Table.Interned

namespace Drafting

/-- The handle of an integer literal. -/
def integer (n : Int64) : Drafting Handle :=
  modifyGet fun d => ((d.workspace.table.integer n).1,
    { d with workspace.table := (d.workspace.table.integer n).2 })

theorem yields_construct {d : Draft} {α : Type} {c : Construction α} {a : α} {w : Workspace}
    (ran : Yields c d.workspace a w) : Yields (construct c) d a { d with workspace := w } := by
  rw [Yields] at ran ⊢
  rw [construct, ExceptT.run_mk, StateT.run, ran]

theorem yields_apply {d : Draft} {c : Construction Instruction} {w : Workspace} {i : Instruction}
    {o : Handle} (ran : Yields c d.workspace i w) (output : i.output = some o) :
    Yields (apply c) d o ⟨w, d.program.push i⟩ := by
  refine (yields_construct ran).bind ?_
  rw [output]
  rfl

/-- An integer can be assigned to an integer. -/
theorem yields_assign {d : Draft} {source target : Handle}
    (left : d.workspace.table.kind? source = some .integer)
    (right : d.workspace.table.kind? target = some .integer) :
    ∃ d', Yields (assign source target) d () d' := by
  have copied : Yields (Construction.copy source target) d.workspace
      (IntegerTree.copied source target) d.workspace :=
    (Construction.yields_kindOf left).bind ((Construction.yields_kindOf right).bind rfl)
  exact ⟨_, (yields_construct copied).bind rfl⟩

end Drafting

namespace IntegerTree

/-- The parts that are no literals, operands first. -/
def inner : IntegerTree → List IntegerTree
  | literal _ => []
  | negate a => a.inner ++ [negate a]
  | binary op a b => a.inner ++ b.inner ++ [binary op a b]

/-- Requests an expression, operands first. -/
def build : IntegerTree → Drafting Handle
  | literal n => Drafting.integer n
  | negate a => do
      let k ← a.build
      Drafting.apply (Request.unary .negate k).perform
  | binary op a b => do
      let j ← a.build
      let k ← b.build
      Drafting.apply (Request.binary op.primitive j k).perform

theorem within_of_mem_inner {a tree : IntegerTree} (h : a ∈ tree.inner) : a.Within tree := by
  induction tree with
  | literal n => cases h
  | negate b ih =>
      rcases List.mem_append.mp h with h | h
      · exact .operand (ih h) (by simp [operands])
      · exact List.mem_singleton.mp h ▸ .refl _
  | binary op b c first second =>
      rcases List.mem_append.mp h with h | h
      · rcases List.mem_append.mp h with h | h
        · exact .operand (first h) (by simp [operands])
        · exact .operand (second h) (by simp [operands])
      · exact List.mem_singleton.mp h ▸ .refl _

/-- The request for a node succeeds. -/
theorem yields_node (tree : IntegerTree) {d : Draft} {nodes : Nodes} (e : d.Expresses nodes)
    (interned : d.workspace.table.Interned) {ks : List Handle}
    (operands : List.Forall₂ (Stands d.workspace.table nodes) ks tree.operands) {r : Request}
    (asked : tree.request? ks = some r) :
    ∃ o d' i, Yields (Drafting.apply r.perform) d o d' ∧ d'.Expresses (nodes ++ [(tree, i)]) ∧
      Stands d'.workspace.table (nodes ++ [(tree, i)]) o tree ∧ d'.workspace.table.Interned ∧
      d.workspace.table.Extends d'.workspace.table := by
  have integers : ∀ k ∈ ks, d.workspace.table.kind? k = some .integer :=
    forall_mem_of_forall₂ operands fun _ _ s => kind?_of_stands e.valid s
  obtain ⟨form, -, ran⟩ := yields_request asked integers
  have applied := Drafting.yields_apply ran rfl
  exact ⟨_, _, _, applied, e.node operands asked applied rfl,
    .output (List.mem_append_right _ (List.mem_singleton.mpr rfl)) rfl, interned.create .integer,
    d.workspace.extends_create .integer⟩

/-- Every expression can be requested, after any others. -/
theorem yields_build (tree : IntegerTree) {d : Draft} {nodes : Nodes} (e : d.Expresses nodes)
    (interned : d.workspace.table.Interned) :
    ∃ h d' made, Yields tree.build d h d' ∧ d'.Expresses (nodes ++ made) ∧
      made.map Prod.fst = tree.inner ∧ Stands d'.workspace.table (nodes ++ made) h tree ∧
      d'.workspace.table.Interned ∧ d.workspace.table.Extends d'.workspace.table := by
  induction tree generalizing d nodes with
  | literal n =>
      obtain ⟨interned', ext, entry⟩ := interned.integer n
      exact ⟨_, _, [], rfl, (List.append_nil nodes).symm ▸ e.extend _ ext, rfl, .literal entry,
        interned', ext⟩
  | negate a ih =>
      obtain ⟨k, d₁, made, ran, e₁, parts, stands, interned₁, ext₁⟩ := ih e interned
      obtain ⟨o, d', i, applied, e', stands', interned', ext'⟩ :=
        yields_node (.negate a) e₁ interned₁ (.cons stands .nil) rfl
      rw [List.append_assoc] at e' stands'
      exact ⟨o, d', made ++ [(.negate a, i)], ran.bind applied, e', by simp [inner, parts], stands',
        interned', fun h v hv => ext' h v (ext₁ h v hv)⟩
  | binary op a b first second =>
      obtain ⟨j, d₁, made, ran, e₁, parts, stands, interned₁, ext₁⟩ := first e interned
      obtain ⟨k, d₂, made', ran', e₂, parts', stands₂, interned₂, ext₂⟩ := second e₁ interned₁
      obtain ⟨o, d', i, applied, e', stands', interned', ext'⟩ := yields_node (.binary op a b) e₂
        interned₂ (.cons (stands.mono ext₂ (List.subset_append_left _ _)) (.cons stands₂ .nil)) rfl
      rw [List.append_assoc, List.append_assoc] at e' stands'
      refine ⟨o, d', _, ran.bind (ran'.bind applied), e', ?_, stands',
        interned', fun h v hv => ext' h v (ext₂ h v (ext₁ h v hv))⟩
      simp [inner, parts, parts']

/-- Every expression can be requested and assigned to an integer. -/
theorem exists_assign (tree : IntegerTree) {w : Workspace} (interned : w.table.Interned)
    {target : Handle} {name : String} (declared : w.table.get? target = some (.named name .integer)) :
    ∃ root nodes d d', Yields tree.build ⟨w, .empty⟩ root d ∧ d.Expresses nodes ∧
      nodes.map Prod.fst = tree.inner ∧ Stands d.workspace.table nodes root tree ∧
      d.workspace.table.get? target = some (.named name .integer) ∧
      Yields (Drafting.assign root target) d () d' := by
  obtain ⟨root, d, nodes, ran, expresses, parts, stands, -, ext⟩ :=
    tree.yields_build (.start w) interned
  have entry := ext target _ declared
  obtain ⟨d', assigned⟩ := Drafting.yields_assign (kind?_of_stands expresses.valid stands)
    (Table.kind?_of_declared entry)
  exact ⟨root, nodes, d, d', ran, expresses, parts, stands, entry, assigned⟩

/-- The sum of `6 * 7` and `1 / 0`. -/
def undefinedSum : IntegerTree :=
  .binary .add (.binary .multiply (.literal 6) (.literal 7)) (.binary .divide (.literal 1) (.literal 0))

end IntegerTree

/-- Of `x = 6 * 7 + 1 / 0` the product is folded, by a folder that fails on everything. -/
theorem Draft.Expresses.optimize_undefinedSum : ∃ root nodes d₁ d₂ report d',
    d₁.Expresses nodes ∧ Stands d₁.workspace.table nodes root IntegerTree.undefinedSum ∧
    (∀ node ∈ nodes, node.1.Within IntegerTree.undefinedSum) ∧
    d₁.workspace.table.get? ⟨2⟩ = some (.named "x" .integer) ∧
    Yields (Drafting.assign root ⟨2⟩) d₁ () d₂ ∧ Policy.constants.folds ∧
    Yields (Drafting.optimize .constants .refusing) d₂ report d' ∧ report.removedConstants = 1 := by
  have interned : (Workspace.ofIntegers ["x"]).table.Interned := fun _ _ found => by cases found
  obtain ⟨root, nodes, d₁, d₂, -, expresses, parts, stands, declared, assigned⟩ :=
    IntegerTree.undefinedSum.exists_assign interned
      (show (Workspace.ofIntegers ["x"]).table.get? ⟨2⟩ = some (.named "x" .integer) from rfl)
  have within : ∀ node ∈ nodes, node.1.Within IntegerTree.undefinedSum := fun node hn =>
    IntegerTree.within_of_mem_inner (parts ▸ List.mem_map_of_mem hn)
  obtain ⟨report, d', f, optimized, removed, -⟩ :=
    optimize_assign expresses stands within declared assigned (show Policy.constants.folds from rfl)
  refine ⟨root, nodes, d₁, d₂, report, d', expresses, stands, within, declared, assigned, rfl,
    optimized _, removed.trans ?_⟩
  calc Nodes.evaluated nodes
    _ = (nodes.map Prod.fst).countP fun tree => tree.value?.isSome := by
        rw [List.countP_map]
        rfl
    _ = 1 := by rw [parts]; decide

end MatrixCode
