import MatrixCode.Proofs.TrailingCopy

/-!
Drafts as they are built. A request that succeeds adds one instruction: either one with a new
temporary for its result, or a copy into a variable that is there. So the temporaries made for
results are all different, and every instruction writes a variable of the kind of its result.
-/

namespace MatrixCode

/-- A range expression that can be classified has its operands in the table. -/
theorem Addressing.isSome_of_classify {t : Table} {range : List Handle} {a : Addressing}
    (h : (classify t range).toOption = some a) : ∀ k ∈ range, (t.get? k).isSome := by
  have operand {k : Handle} {x : Extent} (hk : (Extent.classify t k).toOption = some x) :
      (t.get? k).isSome := by
    rw [Extent.classify, Outcome.toOption_bind, Table.toOption_lookup] at hk
    obtain ⟨v, hv, -⟩ := Option.bind_eq_some_iff.mp hk
    simp [hv]
  unfold classify at h
  split at h
  · obtain ⟨x, hx, -⟩ := Option.bind_eq_some_iff.mp ((Outcome.toOption_bind _ _).symm.trans h)
    simpa using operand hx
  · obtain ⟨x, hx, h⟩ := Option.bind_eq_some_iff.mp ((Outcome.toOption_bind _ _).symm.trans h)
    obtain ⟨y, hy, -⟩ := Option.bind_eq_some_iff.mp ((Outcome.toOption_bind _ _).symm.trans h)
    simpa using ⟨operand hx, operand hy⟩
  · cases h

namespace Construction

/-- The construction only looks. -/
def Observes {α : Type} (c : Construction α) : Prop := ∀ w, (c.run.run w).2 = w

section Observes

variable {α β : Type}

theorem run_query (f : Table → Outcome α) (w : Workspace) :
    (query f).run.run w = (f w.table, w) := by
  rw [query, run_get_bind]
  cases f w.table <;> rfl

theorem observes_pure (a : α) : Observes (pure a) := fun _ => rfl

theorem observes_report (e : Error) : Observes (report e : Construction α) := fun _ => rfl

theorem observes_query (f : Table → Outcome α) : Observes (query f) := fun w => by rw [run_query]

theorem Observes.bind {c : Construction α} {f : α → Construction β} (hc : Observes c)
    (hf : ∀ a, Observes (f a)) : Observes (c >>= f) := by
  intro w
  have before := hc w
  rw [ExceptT.run_bind, StateT.run_bind]
  cases hx : c.run.run w with
  | mk r w₁ =>
      obtain rfl : w₁ = w := by rw [← before, hx]
      cases r with
      | error e => rfl
      | ok a => exact hf a w₁

theorem Observes.ite {p : Prop} [Decidable p] {c c' : Construction α} (hc : Observes c)
    (hc' : Observes c') : Observes (if p then c else c') := by
  split
  · exact hc
  · exact hc'

theorem observes_mismatch (p : Primitive) (hs : List Handle) :
    Observes (mismatch p hs : Construction α) :=
  (observes_query _).bind fun _ => observes_report _

theorem observes_unsupported (p : Primitive) (hs : List Handle) :
    Observes (unsupported p hs : Construction α) :=
  (observes_query _).bind fun _ => observes_report _

theorem observes_forM {f : α → Construction Unit} (hf : ∀ a, Observes (f a)) (xs : List α) :
    Observes (xs.forM f) := by
  induction xs with
  | nil => exact observes_pure ()
  | cons x xs ih => exact (hf x).bind fun _ => ih

theorem observes_screened (p : Primitive) (a b : Handle) : Observes (screened p a b) := by
  have kinds (f : Kind → Kind → Construction Primitive) (hf : ∀ k l, Observes (f k l)) :
      Observes (do f (← kindOf a) (← kindOf b)) :=
    (observes_query _).bind fun k => (observes_query _).bind fun l => hf k l
  unfold screened
  split
  · exact kinds _ fun _ _ => .ite (observes_unsupported _ _)
      (.ite (observes_mismatch _ _) (observes_pure _))
  · exact kinds _ fun _ _ => observes_pure _
  · exact kinds _ fun _ _ => observes_pure _
  · exact observes_pure _

end Observes

section Succeeds

variable {α β : Type} {w w' : Workspace}

theorem Observes.of_bind {c : Construction α} (hc : Observes c) {f : α → Construction β} {b : β}
    (ran : Yields (c >>= f) w b w') : ∃ a, Yields c w a w ∧ Yields (f a) w b w' := by
  obtain ⟨a, w₁, first, rest⟩ := ran.of_bind
  obtain rfl : w₁ = w := by rw [← hc w, first]
  exact ⟨a, first, rest⟩

theorem of_kindOf {h : Handle} {f : Kind → Construction β} {b : β}
    (ran : Yields (kindOf h >>= f) w b w') :
    ∃ kind, w.table.kind? h = some kind ∧ Yields (f kind) w b w' := by
  obtain ⟨kind, first, rest⟩ := (observes_query _).of_bind ran
  rw [Yields, run_query] at first
  refine ⟨kind, ?_, rest⟩
  have found := congrArg Except.toOption (Prod.mk.inj first).1
  simpa [Table.lookupKind, Outcome.toOption_map, Table.toOption_lookup, Table.kind?] using found

theorem of_checkRange {range : List Handle} {f : Unit → Construction β} {b : β}
    (ran : Yields (checkRange range >>= f) w b w') :
    ∃ a, (Addressing.classify w.table range).toOption = some a ∧ Yields (f ()) w b w' := by
  have observes : Observes (checkRange range) := (observes_query _).bind fun _ => observes_pure ()
  obtain ⟨_, checked, rest⟩ := observes.of_bind ran
  obtain ⟨a, classified, -⟩ := (observes_query _).of_bind checked
  rw [Yields, run_query] at classified
  exact ⟨a, Outcome.toOption_eq_some.mpr (Prod.mk.inj classified).1, rest⟩

theorem of_guarded {c : Construction α} {a : α} (ran : Yields (guarded c) w a w') :
    Yields c w a w' := by
  rw [Yields, guarded, ExceptT.run_mk, StateT.run] at ran
  unfold Yields
  cases hx : c.run.run w with
  | mk r w₁ =>
      rw [hx] at ran
      cases r with
      | error e => cases ran
      | ok b => exact ran

theorem not_yields_mismatch (p : Primitive) (hs : List Handle) {a : α} :
    ¬Yields (mismatch p hs) w a w' := by
  intro ran
  obtain ⟨_, _, rest⟩ := (observes_query _).of_bind ran
  cases rest

/-- A check that ends in a mismatch unless it passes. -/
theorem of_check {q : Prop} [Decidable q] {p : Primitive} {hs : List Handle}
    {f : Unit → Construction β} {b : β}
    (ran : Yields (if q then mismatch p hs >>= f else f ()) w b w') :
    ¬q ∧ Yields (f ()) w b w' := by
  split at ran
  · obtain ⟨_, failed, -⟩ := (observes_mismatch p hs).of_bind ran
    exact absurd failed (not_yields_mismatch p hs)
  · next passed => exact ⟨passed, ran⟩

theorem of_allocate {form : Form} {inputs : List Handle} {i : Instruction}
    (ran : Yields (allocate form inputs) w i w') :
    w' = (w.create form.kind).2 ∧ i = ⟨form.primitive, form.signature, inputs,
      some (w.create form.kind).1, none, none, form.dimensions⟩ := by
  cases ran
  exact ⟨rfl, rfl⟩

end Succeeds
end Construction

namespace Form

/-- What is asked of the form of an instruction with a result of its own. -/
structure Computing (form : Form) : Prop where
  copy : form.primitive ≠ .copy
  assemble : form.primitive = .assemble → form.kind = .matrix
  closed : ∀ i : Instruction, i.primitive = form.primitive → i.signature = form.signature →
    Folding.isClosed i → form.kind = .integer

theorem computing_of_unary? {p : Primitive} {kind : Kind} {form : Form}
    (h : unary? p kind = some form) : form.Computing := by
  unfold unary? at h
  split at h <;> cases h <;>
    exact ⟨by simp, by simp, fun i hp hs => by simp [Folding.isClosed, hp, hs]⟩

theorem computing_of_binary? {p : Primitive} {left right : Kind} {form : Form}
    (h : binary? p left right = some form) : form.Computing := by
  obtain ⟨signature, -, h⟩ := Option.bind_eq_some_iff.mp h
  split at h <;> cases h <;>
    exact ⟨by simp, by simp, fun i hp hs => by simp [Folding.isClosed, hp, hs]⟩

end Form

namespace Instruction

/-- The instruction has a new temporary for its result, of a kind that suits its operation. -/
structure Makes (w : Workspace) (kind : Kind) (i : Instruction) : Prop where
  output : i.output = some (w.create kind).1
  copy : i.primitive ≠ .copy
  assemble : i.primitive = .assemble → kind = .matrix
  closed : Folding.isClosed i → kind = .integer
  range : ∀ h ∈ i.range.getD [], (w.table.get? h).isSome

/-- A copy into a part of a matrix. -/
structure CopiesInto (t : Table) (i : Instruction) (target : Handle) : Prop where
  isPartial : i.isPartial
  output : i.output = some target
  matrix : t.kind? target = some .matrix
  range : ∀ h ∈ i.range.getD [], (t.get? h).isSome

section Copying

variable {t : Table} {i : Instruction} {source target : Handle}

theorem CopiesInto.primitive (c : i.CopiesInto t target) : i.primitive = .copy := by
  have part := c.isPartial
  simp only [Instruction.isPartial, Bool.and_eq_true, decide_eq_true_eq] at part
  exact part.1

theorem Copies.primitive (c : i.Copies t source target) : i.primitive = .copy := by
  obtain ⟨left, right, form, -, -, found, rfl⟩ := c.form
  unfold Form.copy? at found
  split at found <;> cases found <;> rfl

theorem Copies.range (c : i.Copies t source target) : i.range = none := by
  obtain ⟨-, -, -, -, -, -, rfl⟩ := c.form
  rfl

theorem Copies.isPartial (c : i.Copies t source target) : i.isPartial = false := by
  simp [Instruction.isPartial, c.range]

theorem Copies.mono (c : i.Copies t source target) {t' : Table}
    (kinds : ∀ h kind, t.kind? h = some kind → t'.kind? h = some kind) :
    i.Copies t' source target := by
  obtain ⟨left, right, form, hl, hr, rest⟩ := c.form
  exact ⟨left, right, form, kinds source left hl, kinds target right hr, rest⟩

theorem Copies.kind_target (c : i.Copies t source target) : ∃ kind, t.kind? target = some kind := by
  obtain ⟨left, right, -, -, hr, -⟩ := c.form
  exact ⟨right, hr⟩

end Copying
end Instruction

theorem Table.isSome_get?_of_kind? {t : Table} {h : Handle} {kind : Kind}
    (hk : t.kind? h = some kind) : (t.get? h).isSome := by
  obtain ⟨v, hv, -⟩ := Option.map_eq_some_iff.mp hk
  simp [hv]

namespace Construction

variable {w w' : Workspace} {i : Instruction}

theorem makes_of_allocate {form : Form} (computing : form.Computing) {inputs : List Handle}
    (ran : Yields (allocate form inputs) w i w') :
    w' = (w.create form.kind).2 ∧ i.Makes w form.kind := by
  obtain ⟨rfl, rfl⟩ := of_allocate ran
  exact ⟨rfl, rfl, computing.copy, computing.assemble, computing.closed _ rfl rfl, by simp⟩

theorem makes_of_unary {p : Primitive} {a : Handle} (ran : Yields (unary p a) w i w') :
    ∃ kind, w' = (w.create kind).2 ∧ i.Makes w kind := by
  obtain ⟨kind, -, ran⟩ := of_kindOf (of_guarded ran)
  split at ran
  · next form found => exact ⟨_, makes_of_allocate (Form.computing_of_unary? found) ran⟩
  · exact absurd ran (not_yields_mismatch p [a])

theorem makes_of_binary {p : Primitive} {a b : Handle} (ran : Yields (binary p a b) w i w') :
    ∃ kind, w' = (w.create kind).2 ∧ i.Makes w kind := by
  obtain ⟨q, -, ran⟩ := (observes_screened p a b).of_bind ran
  obtain ⟨left, -, ran⟩ := of_kindOf (of_guarded ran)
  obtain ⟨right, -, ran⟩ := of_kindOf ran
  split at ran
  · next form found => exact ⟨_, makes_of_allocate (Form.computing_of_binary? found) ran⟩
  · exact absurd ran (not_yields_mismatch q [a, b])

theorem makes_of_assemble {rows : List (List Handle)} (ran : Yields (assemble rows) w i w') :
    ∃ kind, w' = (w.create kind).2 ∧ i.Makes w kind := by
  have items : Observes (rows.flatten.forM checkItem) :=
    observes_forM (fun h => (observes_query _).bind fun kind =>
      .ite (observes_unsupported _ _) (observes_pure ())) _
  obtain ⟨_, -, ran⟩ := items.of_bind (of_guarded ran)
  obtain ⟨j, w₁, made, ran⟩ := ran.of_bind
  obtain ⟨rfl, makes⟩ := makes_of_allocate
    ⟨by simp, by simp, fun i hp hs => by simp [Folding.isClosed, hp]⟩ made
  cases ran
  exact ⟨_, rfl, makes.output, makes.copy, makes.assemble, makes.closed, makes.range⟩

theorem makes_of_extract {a : Handle} {range : List Handle} (ran : Yields (extract a range) w i w') :
    ∃ kind, w' = (w.create kind).2 ∧ i.Makes w kind := by
  obtain ⟨kind, -, ran⟩ := of_kindOf (of_guarded ran)
  obtain ⟨_, classified, ran⟩ := of_checkRange (of_check ran).2
  obtain ⟨j, w₁, made, ran⟩ := ran.of_bind
  obtain ⟨rfl, makes⟩ := makes_of_allocate
    ⟨by simp, by simp, fun i hp hs => by simp [Folding.isClosed, hp]⟩ made
  cases ran
  exact ⟨_, rfl, makes.output, makes.copy, makes.assemble, makes.closed,
    Addressing.isSome_of_classify classified⟩

theorem makes_of_element {a : Handle} {indices : List Handle}
    (ran : Yields (element a indices) w i w') : ∃ kind, w' = (w.create kind).2 ∧ i.Makes w kind := by
  obtain ⟨kind, -, ran⟩ := of_kindOf (of_guarded ran)
  have integers : Observes (indices.forM fun i => do
      if (← kindOf i) ≠ .integer then mismatch .element (a :: indices)) :=
    observes_forM (fun h => (observes_query _).bind fun kind =>
      .ite (observes_mismatch _ _) (observes_pure ())) _
  obtain ⟨_, -, ran⟩ := integers.of_bind (of_check ran).2
  exact ⟨_, makes_of_allocate ⟨by simp, by simp, fun i hp hs => by simp [Folding.isClosed, hp]⟩ ran⟩

theorem copies_of_copy {source target : Handle} (ran : Yields (copy source target) w i w') :
    w' = w ∧ i.Copies w.table source target := by
  obtain ⟨left, hl, ran⟩ := of_kindOf ran
  obtain ⟨right, hr, ran⟩ := of_kindOf ran
  split at ran
  · next form found =>
      cases ran
      exact ⟨rfl, ⟨left, right, form, hl, hr, found, rfl⟩⟩
  · exact absurd ran (not_yields_mismatch _ _)

theorem copiesInto_of_copyRange {source target : Handle} {range : List Handle}
    (ran : Yields (copyRange source target range) w i w') :
    w' = w ∧ i.CopiesInto w.table target := by
  obtain ⟨left, -, ran⟩ := of_kindOf ran
  obtain ⟨right, hr, ran⟩ := of_kindOf ran
  split at ran
  · next form found =>
      obtain ⟨_, classified, ran⟩ := of_checkRange ran
      cases ran
      obtain ⟨rfl, primitive⟩ : right = .matrix ∧ form.primitive = .copy := by
        unfold Form.copyRange? at found
        split at found <;> cases found <;> exact ⟨rfl, rfl⟩
      exact ⟨rfl, by simp [Instruction.isPartial, copying, primitive], rfl, hr,
        Addressing.isSome_of_classify classified⟩
  · exact absurd ran (not_yields_mismatch _ _)

end Construction

/-- A request makes an instruction with a temporary of its own, or a copy. -/
theorem Request.of_perform {r : Request} {w w' : Workspace} {i : Instruction}
    (ran : Yields r.perform w i w') :
    (∃ kind, w' = (w.create kind).2 ∧ i.Makes w kind) ∨
      w' = w ∧ ((∃ source target, i.Copies w.table source target) ∨
        ∃ target, i.CopiesInto w.table target) := by
  cases r with
  | unary p a => exact .inl (Construction.makes_of_unary ran)
  | binary p a b => exact .inl (Construction.makes_of_binary ran)
  | assemble rows => exact .inl (Construction.makes_of_assemble ran)
  | complex re im =>
      obtain ⟨_, -, ran⟩ := (Construction.observes_query _).of_bind ran
      cases ran
  | extract a range => exact .inl (Construction.makes_of_extract ran)
  | element a indices => exact .inl (Construction.makes_of_element ran)
  | copy source target =>
      obtain ⟨same, copies⟩ := Construction.copies_of_copy ran
      exact .inr ⟨same, .inl ⟨source, target, copies⟩⟩
  | copyRange source target range =>
      obtain ⟨same, copies⟩ := Construction.copiesInto_of_copyRange ran
      exact .inr ⟨same, .inr ⟨target, copies⟩⟩

namespace Drafting

variable {d d' : Draft}

theorem of_construct {α : Type} {c : Construction α} {a : α} (ran : Yields (construct c) d a d') :
    ∃ w, Yields c d.workspace a w ∧ d' = { d with workspace := w } := by
  obtain ⟨result, same⟩ := Prod.mk.inj ran
  exact ⟨_, Prod.ext result rfl, same.symm⟩

theorem of_apply {c : Construction Instruction} {h : Handle} (ran : Yields (apply c) d h d') :
    ∃ i w, Yields c d.workspace i w ∧ i.output = some h ∧ d' = ⟨w, d.program.push i⟩ := by
  obtain ⟨i, d₁, constructed, ran⟩ := ran.of_bind
  obtain ⟨w, made, rfl⟩ := of_construct constructed
  refine ⟨i, w, made, ?_⟩
  split at ran
  · next output found =>
      cases ran
      exact ⟨found, rfl⟩
  · cases ran

theorem of_assign {source target : Handle} (ran : Yields (assign source target) d () d') :
    ∃ i, i.Copies d.workspace.table source target ∧
      d' = ⟨d.workspace, { d.program.push i with output := some target }⟩ := by
  obtain ⟨i, d₁, constructed, ran⟩ := ran.of_bind
  obtain ⟨w, made, rfl⟩ := of_construct constructed
  obtain ⟨rfl, copies⟩ := Construction.copies_of_copy made
  cases ran
  exact ⟨i, copies, rfl⟩

theorem of_assignRange {source target : Handle} {range : List Handle}
    (ran : Yields (assignRange source target range) d () d') :
    ∃ i, i.CopiesInto d.workspace.table target ∧
      d' = ⟨d.workspace, { d.program.push i with output := some target }⟩ := by
  obtain ⟨i, d₁, constructed, ran⟩ := ran.of_bind
  obtain ⟨w, made, rfl⟩ := of_construct constructed
  obtain ⟨rfl, copies⟩ := Construction.copiesInto_of_copyRange made
  cases ran
  exact ⟨i, copies, rfl⟩

end Drafting

/-- Entries are only added. -/
def Table.Extends (t t' : Table) : Prop := ∀ h v, t.get? h = some v → t'.get? h = some v

namespace Workspace

@[simp] theorem create_handle (w : Workspace) (kind : Kind) : (w.create kind).1 = ⟨w.table.size⟩ := rfl

theorem get?_create (w : Workspace) (kind : Kind) (h : Handle) :
    (w.create kind).2.table.get? h =
      if h = ⟨w.table.size⟩ then some (nextTemporary w.temporaries.created kind)
      else w.table.get? h := by
  obtain ⟨n⟩ := h
  simp only [create, Table.add, Table.get?, Table.size, Array.getElem?_push, Handle.mk.injEq]

theorem get?_of_fresh (w : Workspace) : w.table.get? ⟨w.table.size⟩ = none := by
  simp [Table.get?, Table.size]

theorem extends_create (w : Workspace) (kind : Kind) :
    w.table.Extends (w.create kind).2.table := by
  intro h v hv
  rw [get?_create, if_neg, hv]
  rintro rfl
  simp [w.get?_of_fresh] at hv

/-- A new temporary is never a literal. -/
theorem nextTemporary_spec (created : Counts) (kind : Kind) :
    (nextTemporary created kind).temporary = true ∧
      (nextTemporary created kind).isLiteral = false ∧
      (nextTemporary created kind).constant = false ∧
      (kind ≠ .sequence → (nextTemporary created kind).kind = kind) := by
  have literal (c : Char) (name : String) (content : Content) :
      (Variable.fresh (String.ofList ['t', c] ++ name) content).isLiteral = false := by
    simp [Variable.fresh, Variable.isLiteral, LiteralName.body?]
  cases kind with
  | integer => exact ⟨rfl, literal 'i' _ _, rfl, fun _ => rfl⟩
  | double => exact ⟨rfl, literal 'd' _ _, rfl, fun _ => rfl⟩
  | matrix => exact ⟨rfl, literal 'm' _ _, rfl, fun _ => rfl⟩
  | sequence => exact ⟨rfl, literal 'm' _ _, rfl, fun h => absurd rfl h⟩

end Workspace

namespace Table.Extends

variable {t t' : Table} (ext : t.Extends t')

include ext

theorem kind? {h : Handle} {kind : Kind} (hk : t.kind? h = some kind) : t'.kind? h = some kind := by
  obtain ⟨v, hv, hk⟩ := Option.map_eq_some_iff.mp hk
  exact Option.map_eq_some_iff.mpr ⟨v, ext h v hv, hk⟩

theorem typed {i : Instruction} (typed : i.Typed t) : i.Typed t' where
  matrix w hw h := ext.kind? (typed.matrix w hw h)
  integer w hw h := ext.kind? (typed.integer w hw h)

theorem isSome_get? {h : Handle} (found : (t.get? h).isSome) : (t'.get? h).isSome := by
  obtain ⟨v, hv⟩ := Option.isSome_iff_exists.mp found
  simp [ext h v hv]

theorem copiesInto {i : Instruction} {target : Handle} (c : i.CopiesInto t target) :
    i.CopiesInto t' target :=
  ⟨c.isPartial, c.output, ext.kind? c.matrix, fun h hh => ext.isSome_get? (c.range h hh)⟩

end Table.Extends

namespace Draft

/-- The drafts that come about by requests and assignments, in a table that may get more entries
in between. -/
inductive Built : Draft → Prop where
  | start (w : Workspace) : Built ⟨w, .empty⟩
  | extend {d : Draft} (built : Built d) (w : Workspace) (ext : d.workspace.table.Extends w.table) :
      Built { d with workspace := w }
  | request {d d' : Draft} (built : Built d) (r : Request) (h : Handle)
      (ran : Yields (Drafting.apply r.perform) d h d') : Built d'
  | assign {d d' : Draft} (built : Built d) (source target : Handle)
      (ran : Yields (Drafting.assign source target) d () d') : Built d'
  | assignRange {d d' : Draft} (built : Built d) (source target : Handle) (range : List Handle)
      (ran : Yields (Drafting.assignRange source target range) d () d') : Built d'

/-- What holds of a draft that was built. -/
structure Formed (d : Draft) : Prop where
  written : ∀ i ∈ d.program.instructions, ∃ w, i.output = some w ∧ (d.workspace.table.get? w).isSome
  typed : ∀ i ∈ d.program.instructions, i.Typed d.workspace.table
  ranges : ∀ i ∈ d.program.instructions, ∀ h ∈ i.range.getD [], (d.workspace.table.get? h).isSome
  made : ∀ i ∈ d.program.instructions, i.primitive ≠ .copy → ∀ w, i.output = some w →
    ∃ v, d.workspace.table.get? w = some v ∧ v.temporary = true ∧ v.isLiteral = false ∧
      v.constant = false
  copied : ∀ i ∈ d.program.instructions, i.primitive = .copy →
    (∃ source target, i.Copies d.workspace.table source target) ∨
      ∃ target, i.CopiesInto d.workspace.table target
  fresh : (Instruction.outputs (d.program.instructions.filter fun i => i.primitive ≠ .copy)).Nodup

namespace Formed

variable {d : Draft}

theorem extend (formed : d.Formed) {w : Workspace} (ext : d.workspace.table.Extends w.table) :
    Formed { d with workspace := w } where
  written i hi := by
    obtain ⟨h, ho, found⟩ := formed.written i hi
    exact ⟨h, ho, ext.isSome_get? found⟩
  typed i hi := ext.typed (formed.typed i hi)
  ranges i hi h hh := ext.isSome_get? (formed.ranges i hi h hh)
  made i hi computing h ho := by
    obtain ⟨v, hv, rest⟩ := formed.made i hi computing h ho
    exact ⟨v, ext h v hv, rest⟩
  copied i hi copy := (formed.copied i hi copy).imp
    (fun ⟨source, target, c⟩ => ⟨source, target, c.mono fun _ _ => ext.kind?⟩)
    (fun ⟨target, c⟩ => ⟨target, ext.copiesInto c⟩)
  fresh := formed.fresh

/-- One more instruction, whose output is new unless it is a copy. -/
theorem push (formed : d.Formed) {i : Instruction} {p : Program}
    (split : p.instructions = d.program.instructions ++ [i])
    (written : ∃ w, i.output = some w ∧ (d.workspace.table.get? w).isSome)
    (typed : i.Typed d.workspace.table)
    (ranges : ∀ h ∈ i.range.getD [], (d.workspace.table.get? h).isSome)
    (made : i.primitive ≠ .copy → ∀ w, i.output = some w →
      (∃ v, d.workspace.table.get? w = some v ∧ v.temporary = true ∧ v.isLiteral = false ∧
        v.constant = false) ∧ w ∉ Instruction.outputs d.program.instructions)
    (copied : i.primitive = .copy → (∃ source target, i.Copies d.workspace.table source target) ∨
      ∃ target, i.CopiesInto d.workspace.table target) :
    Formed ⟨d.workspace, p⟩ := by
  have either {j : Instruction} (hj : j ∈ p.instructions) : j ∈ d.program.instructions ∨ j = i := by
    simpa [split] using hj
  refine ⟨fun j hj => ?_, fun j hj => ?_, fun j hj => ?_, fun j hj => ?_, fun j hj => ?_, ?_⟩
  · rcases either hj with old | rfl
    · exact formed.written j old
    · exact written
  · rcases either hj with old | rfl
    · exact formed.typed j old
    · exact typed
  · rcases either hj with old | rfl
    · exact formed.ranges j old
    · exact ranges
  · rcases either hj with old | rfl
    · exact formed.made j old
    · exact fun computing w hw => (made computing w hw).1
  · rcases either hj with old | rfl
    · exact formed.copied j old
    · exact copied
  · rw [split, List.filter_append, Instruction.outputs_append]
    by_cases copy : i.primitive = .copy
    · simpa [copy] using formed.fresh
    · obtain ⟨w, hw, -⟩ := written
      have new : w ∉ Instruction.outputs (d.program.instructions.filter fun j => j.primitive ≠ .copy) :=
        fun hm => (made copy w hw).2 ((List.filter_sublist.filterMap _).subset hm)
      simp only [List.filter_cons, List.filter_nil, copy, ne_eq, not_false_eq_true, decide_true,
        if_true, Instruction.outputs_cons, hw, Option.toList_some, Instruction.outputs_nil,
        List.append_nil]
      exact formed.fresh.append (List.nodup_singleton w) (by simpa using new)

theorem push_makes (formed : d.Formed) {kind : Kind} {i : Instruction}
    (makes : i.Makes d.workspace kind) : Formed ⟨(d.workspace.create kind).2, d.program.push i⟩ := by
  obtain ⟨temporary, literal, constant, same⟩ :=
    Workspace.nextTemporary_spec d.workspace.temporaries.created kind
  have entry := d.workspace.get?_create kind ⟨d.workspace.table.size⟩
  rw [if_pos rfl] at entry
  have kinds (h : kind ≠ .sequence) :
      (d.workspace.create kind).2.table.kind? ⟨d.workspace.table.size⟩ = some kind := by
    rw [Table.kind?, entry, Option.map_some, same h]
  have output {w : Handle} (hw : i.output = some w) : w = ⟨d.workspace.table.size⟩ := by
    simpa using hw.symm.trans makes.output
  refine (formed.extend (d.workspace.extends_create kind)).push rfl ⟨_, makes.output, ?_⟩
    ⟨fun w hw h => ?_, fun w hw h => ?_⟩
    (fun h hh => (d.workspace.extends_create kind).isSome_get? (makes.range h hh))
    (fun _ w hw => ?_) fun copy => absurd copy makes.copy
  · simp [entry]
  · obtain rfl := output hw
    rcases h with part | assemble
    · simp [Instruction.isPartial, makes.copy] at part
    · rw [makes.assemble assemble] at kinds ⊢
      exact kinds (by simp)
  · obtain rfl := output hw
    rw [makes.closed h] at kinds ⊢
    exact kinds (by simp)
  · obtain rfl := output hw
    refine ⟨⟨_, entry, temporary, literal, constant⟩, fun hm => ?_⟩
    obtain ⟨j, hj, written⟩ := Instruction.mem_outputs.mp hm
    obtain ⟨w, hw', found⟩ := formed.written j hj
    obtain rfl : w = ⟨d.workspace.table.size⟩ := by simpa [hw'] using written
    simp [d.workspace.get?_of_fresh] at found

theorem push_copies (formed : d.Formed) {i : Instruction} {p : Program}
    (split : p.instructions = d.program.instructions ++ [i])
    (copies : (∃ source target, i.Copies d.workspace.table source target) ∨
      ∃ target, i.CopiesInto d.workspace.table target) : Formed ⟨d.workspace, p⟩ := by
  obtain ⟨primitive, range, target, output, found, matrix⟩ : i.primitive = .copy ∧
      (∀ h ∈ i.range.getD [], (d.workspace.table.get? h).isSome) ∧ ∃ target,
      i.output = some target ∧ (d.workspace.table.get? target).isSome ∧
        (i.isPartial → d.workspace.table.kind? target = some .matrix) := by
    rcases copies with ⟨source, target, c⟩ | ⟨target, c⟩
    · exact ⟨c.primitive, by simp [c.range], target, c.output,
        Table.isSome_get?_of_kind? c.kind_target.choose_spec, fun part => by simp [c.isPartial] at part⟩
    · exact ⟨c.primitive, c.range, target, c.output, Table.isSome_get?_of_kind? c.matrix,
        fun _ => c.matrix⟩
  refine formed.push split ⟨target, output, found⟩ ⟨fun w hw h => ?_, fun w hw h => ?_⟩ range
    (fun h => absurd primitive h) fun _ => copies
  · obtain rfl : target = w := by simpa [output] using hw
    rcases h with part | assemble
    · exact matrix part
    · simp [primitive] at assemble
  · simp [Folding.isClosed, primitive] at h

end Formed

/-- A plain copy is in the form for the kinds of its source and its target. -/
theorem Formed.copies {d : Draft} (formed : d.Formed) {i : Instruction}
    (hi : i ∈ d.program.instructions) (plain : i.isPlainCopy) {target : Handle}
    (output : i.output = some target) : ∃ source, i.Copies d.workspace.table source target := by
  simp only [Instruction.isPlainCopy, Bool.and_eq_true, decide_eq_true_eq] at plain
  obtain ⟨source, target', copies⟩ | ⟨target', into⟩ := formed.copied i hi plain.1.1
  · obtain rfl := Option.some.inj (copies.output.symm.trans output)
    exact ⟨source, copies⟩
  · have part := into.isPartial
    simp [Instruction.isPartial, Option.isNone_iff_eq_none.mp plain.1.2] at part

theorem Built.formed {d : Draft} (built : d.Built) : d.Formed := by
  induction built with
  | start w => constructor <;> simp [Program.empty]
  | extend _ w ext formed => exact formed.extend ext
  | request _ r h ran formed =>
      obtain ⟨i, w, made, -, rfl⟩ := Drafting.of_apply ran
      obtain ⟨kind, rfl, makes⟩ | ⟨rfl, copies⟩ := Request.of_perform made
      · exact formed.push_makes makes
      · exact formed.push_copies rfl copies
  | assign _ source target ran formed =>
      obtain ⟨i, copies, rfl⟩ := Drafting.of_assign ran
      exact formed.push_copies rfl (.inl ⟨source, target, copies⟩)
  | assignRange _ source target range ran formed =>
      obtain ⟨i, copies, rfl⟩ := Drafting.of_assignRange ran
      exact formed.push_copies rfl (.inr ⟨target, copies⟩)

/-- The draft of one equation: instructions that each have a temporary of their own, and then an
assignment to a variable of the user. A temporary is read only after it was written. -/
structure SingleEquation (d : Draft) (body : List Instruction) (last : Instruction)
    (target : Handle) : Prop where
  built : d.Built
  split : d.program.instructions = body ++ [last]
  computes : ∀ i ∈ body, i.primitive ≠ .copy
  assigns : last.primitive = .copy
  output : last.output = some target
  user : d.IsUser target
  reads : ∀ done i rest, d.program.instructions = done ++ i :: rest →
    ∀ k ∈ i.sources d.workspace.table, d.workspace.table.IsTemporary k → k ∈ Instruction.outputs done

namespace SingleEquation

variable {d : Draft} {body : List Instruction} {last : Instruction} {target : Handle}
  (single : d.SingleEquation body last target)

include single

theorem isTemporary_of_mem_outputs {o : Handle} (ho : o ∈ Instruction.outputs body) :
    d.workspace.table.IsTemporary o := by
  obtain ⟨i, hi, written⟩ := Instruction.mem_outputs.mp ho
  obtain ⟨v, hv, temporary, -⟩ := single.built.formed.made i (by simp [single.split, hi])
    (single.computes i hi) o written
  exact ⟨v, hv, temporary⟩

theorem nodup_outputs : (Instruction.outputs body).Nodup := by
  have fresh := single.built.formed.fresh
  have all : body.filter (fun i => i.primitive ≠ .copy) = body :=
    List.filter_eq_self.mpr fun i hi => by simpa using single.computes i hi
  rwa [single.split, List.filter_append, all, Instruction.outputs_append, List.filter_cons_of_neg
    (by simp [single.assigns]), List.filter_nil, Instruction.outputs_nil, List.append_nil] at fresh

/-- Every temporary is written at most once. -/
theorem count_outputs_le {o : Handle} (temporary : d.workspace.table.IsTemporary o) :
    (Instruction.outputs d.program.instructions).count o ≤ 1 := by
  have other : target ≠ o := by
    rintro rfl
    exact single.user temporary
  rw [single.split, Instruction.outputs_append, List.count_append]
  simp only [Instruction.outputs_cons, single.output, Option.toList_some, Instruction.outputs_nil,
    List.append_nil, List.count_singleton, beq_iff_eq, other, if_false, Nat.add_zero]
  exact List.nodup_iff_count_le_one.mp single.nodup_outputs o

theorem eq_last_of_isPartial {i : Instruction} (hi : i ∈ d.program.instructions)
    (part : i.isPartial) : i = last := by
  rw [single.split, List.mem_append, List.mem_singleton] at hi
  refine hi.resolve_left fun hb => single.computes i hb ?_
  simp only [Instruction.isPartial, Bool.and_eq_true, decide_eq_true_eq] at part
  exact part.1

/-- No temporary has to be there before the draft runs. -/
theorem not_live {h : Handle} (temporary : d.workspace.table.IsTemporary h) :
    ¬Live d.workspace.table d.IsUser d.program.instructions h := by
  refine Live.not_of_used (fun user => user temporary) fun done i rest split used => ?_
  rcases List.mem_append.mp used with read | written
  · exact single.reads done i rest split h read temporary
  · split at written
    · next part =>
        obtain rfl := single.eq_last_of_isPartial (by simp [split]) part
        obtain rfl : target = h := by simpa [single.output, eq_comm] using written
        exact absurd temporary single.user
    · cases written

/-- A temporary that is written is as it was made. -/
theorem made {o : Handle} (ho : o ∈ Instruction.outputs d.program.instructions)
    (temporary : d.workspace.table.IsTemporary o) :
    ∃ v, d.workspace.table.get? o = some v ∧ v.isLiteral = false ∧ v.constant = false := by
  obtain ⟨i, hi, written⟩ := Instruction.mem_outputs.mp ho
  have computes : i.primitive ≠ .copy := by
    rw [single.split, List.mem_append, List.mem_singleton] at hi
    refine hi.elim (single.computes i) ?_
    rintro rfl
    obtain rfl : target = o := by simpa [single.output] using written
    exact absurd temporary single.user
  obtain ⟨v, hv, -, rest⟩ := single.built.formed.made i hi computes o written
  exact ⟨v, hv, rest⟩

/-- A temporary that is read is not constant. -/
theorem constant_eq_false {i : Instruction} (hi : i ∈ d.program.instructions) {k : Handle}
    (hk : k ∈ i.sources d.workspace.table) {v : Variable} (hv : d.workspace.table.get? k = some v)
    (temporary : v.temporary = true) : v.constant = false := by
  obtain ⟨done, rest, split⟩ := List.append_of_mem hi
  have written := single.reads done i rest split k hk ⟨v, hv, temporary⟩
  obtain ⟨u, hu, -, constant⟩ := single.made (by simp [split, written]) ⟨v, hv, temporary⟩
  obtain rfl := Option.some.inj (hv.symm.trans hu)
  exact constant

theorem sound (covered : ∀ i ∈ d.program.instructions, i.Covered d.workspace.table) : d.Sound where
  covered := covered
  typed := single.built.formed.typed
  plain o ho a temporary ha := by
    obtain ⟨v, hv, literal, -⟩ := single.made ho temporary
    obtain rfl : v.appearance = a := by simpa [Table.appearance?, hv] using ha
    exact literal
  opened h temporary := single.not_live temporary

end SingleEquation

/-- The draft of an equation in a workspace. -/
def ofEquation (equation : Drafting Unit) (w : Workspace) : Draft := (equation.run.run ⟨w, .empty⟩).2

end Draft

/-- What holds of an instruction and those before it, checked at each place. -/
theorem forall_of_take {is : List Instruction} {p : List Instruction → Instruction → Prop}
    (checked : ∀ n < is.length, ∀ i ∈ is[n]?, p (is.take n) i) :
    ∀ done i rest, is = done ++ i :: rest → p done i := by
  rintro done i rest rfl
  simpa using checked done.length (by simp) i (by simp)

/-- Integers of the user, beside the integers zero and one. -/
def Workspace.ofIntegers (names : List String) : Workspace where
  table := ⟨#[.integerLiteral 0, .integerLiteral 1] ++ (names.map (.named · .integer)).toArray, []⟩
  temporaries := ⟨.zero, .zero, []⟩

/-- The equation `x = -(-n)` in the integers `n` and `x`, after a sum of constants. -/
def Drafting.doubleNegation : Drafting Unit := do
  let _ ← apply (Request.binary .add ⟨0⟩ ⟨1⟩).perform
  let negated ← apply (Request.unary .negate ⟨2⟩).perform
  let again ← apply (Request.unary .negate negated).perform
  assign again ⟨3⟩

theorem Draft.singleEquation_doubleNegation : ∃ body last,
    (ofEquation .doubleNegation (.ofIntegers ["n", "x"])).SingleEquation body last ⟨3⟩ := by
  have ran : Yields Drafting.doubleNegation ⟨.ofIntegers ["n", "x"], .empty⟩ ()
      (ofEquation .doubleNegation (.ofIntegers ["n", "x"])) :=
    yields_of_toOption (by decide +kernel)
  obtain ⟨_, _, first, ran⟩ := ran.of_bind
  obtain ⟨_, _, second, ran⟩ := ran.of_bind
  obtain ⟨_, _, third, assigned⟩ := ran.of_bind
  refine ⟨(ofEquation .doubleNegation (.ofIntegers ["n", "x"])).program.instructions.dropLast, _,
    .assign (.request (.request (.request (.start _) _ _ first) _ _ second) _ _ third) _ _ assigned,
    (List.dropLast_append_getLast (by decide +kernel)).symm, ?_, ?_, ?_, ?_, forall_of_take ?_⟩
  all_goals decide +kernel

end MatrixCode
