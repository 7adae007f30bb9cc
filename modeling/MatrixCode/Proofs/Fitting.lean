import MatrixCode.Proofs.Steps

/-!
Instructions that fit their operands. An instruction comes about in a form that was chosen for
the kinds of its operands, with a target of the kind of the result. No step of the optimizer
changes the kind of a variable, and variables give way to others of their kind only, so
instructions go on to fit.
-/

namespace MatrixCode

/-- One or two operands that select rows, columns or elements. -/
structure Table.Selects (t : Table) (range : List Handle) : Prop where
  count : range.length = 1 ∨ range.length = 2
  operand : ∀ h ∈ range, ∃ kind, t.kind? h = some kind ∧ kind ≠ .matrix

namespace Instruction

/-- The instruction is in a form for the kinds of its operands, and its target is of the kind
of the result. -/
inductive Fits (t : Table) : Instruction → Prop where
  | unary {p : Primitive} {a w : Handle} {kind : Kind} {form : Form} (ha : t.kind? a = some kind)
      (found : Form.unary? p kind = some form) (hw : t.kind? w = some form.kind) :
      Fits t ⟨form.primitive, form.signature, [a], some w, none, none, form.dimensions⟩
  | binary {p : Primitive} {a b w : Handle} {left right : Kind} {form : Form}
      (ha : t.kind? a = some left) (hb : t.kind? b = some right)
      (found : Form.binary? p left right = some form) (hw : t.kind? w = some form.kind) :
      Fits t ⟨form.primitive, form.signature, [a, b], some w, none, none, form.dimensions⟩
  | assemble {rows : List (List Handle)} {w : Handle}
      (items : ∀ h ∈ rows.flatten, ∃ kind, t.kind? h = some kind ∧ kind ≠ .sequence)
      (hw : t.kind? w = some .matrix) :
      Fits t ⟨.assemble, .bare, [], some w, none, some rows, []⟩
  | extract {a w : Handle} {range : List Handle} (ha : t.kind? a = some .matrix)
      (selects : t.Selects range) (hw : t.kind? w = some .matrix) :
      Fits t ⟨.extract, .bare, [a], some w, some range, none, []⟩
  | element {a w : Handle} {indices : List Handle} (ha : t.kind? a = some .matrix)
      (count : indices.length = 1 ∨ indices.length = 2)
      (integers : ∀ h ∈ indices, t.kind? h = some .integer) (hw : t.kind? w = some .double) :
      Fits t ⟨.element, .bare, a :: indices, some w, none, none, []⟩
  | copy {source target : Handle} {left right : Kind} {form : Form}
      (hs : t.kind? source = some left) (ht : t.kind? target = some right)
      (found : Form.copy? left right = some form) :
      Fits t (Construction.copying form source target none)
  | copyRange {source target : Handle} {range : List Handle} {left right : Kind} {form : Form}
      (hs : t.kind? source = some left) (ht : t.kind? target = some right)
      (found : Form.copyRange? left right = some form) (selects : t.Selects range) :
      Fits t (Construction.copying form source target (some range))

end Instruction

namespace Table.Selects

variable {t t' : Table} {range : List Handle} {f : Handle → Handle}

theorem rename (selects : t.Selects range)
    (kinds : ∀ h kind, t.kind? h = some kind → t'.kind? (f h) = some kind) :
    t'.Selects (range.map f) where
  count := by simpa using selects.count
  operand h hh := by
    obtain ⟨k, hk, rfl⟩ := List.mem_map.mp hh
    obtain ⟨kind, found, other⟩ := selects.operand k hk
    exact ⟨kind, kinds k kind found, other⟩

end Table.Selects

namespace Form

theorem kind_of_unary? {p : Primitive} {kind : Kind} {form : Form} (h : unary? p kind = some form) :
    form.kind ≠ .sequence := by
  unfold unary? at h
  split at h <;> cases h <;> simp

theorem kind_of_binary? {p : Primitive} {left right : Kind} {form : Form}
    (h : binary? p left right = some form) : form.kind ≠ .sequence := by
  obtain ⟨signature, -, h⟩ := Option.bind_eq_some_iff.mp h
  split at h <;> cases h <;> simp

theorem primitive_of_copy? {left right : Kind} {form : Form} (h : copy? left right = some form) :
    form.primitive = .copy := by
  unfold copy? at h
  split at h <;> cases h <;> rfl

theorem primitive_of_copyRange? {left right : Kind} {form : Form}
    (h : copyRange? left right = some form) : form.primitive = .copy ∧ right = .matrix := by
  unfold copyRange? at h
  split at h <;> cases h <;> exact ⟨rfl, rfl⟩

end Form

/-- A range that can be classified selects. -/
theorem Addressing.selects_of_classify {t : Table} {range : List Handle} {a : Addressing}
    (h : (classify t range).toOption = some a) : t.Selects range := by
  have operand {k : Handle} {x : Extent} (hk : (Extent.classify t k).toOption = some x) :
      ∃ kind, t.kind? k = some kind ∧ kind ≠ .matrix := by
    rw [Extent.classify, Outcome.toOption_bind, Table.toOption_lookup] at hk
    obtain ⟨v, hv, hk⟩ := Option.bind_eq_some_iff.mp hk
    refine ⟨v.kind, by simp [Table.kind?, hv], fun matrix => ?_⟩
    cases hc : v.content with
    | integer | double | sequence => simp [Variable.kind, Content.kind, hc] at matrix
    | matrix => simp [hc] at hk
  unfold classify at h
  split at h
  · obtain ⟨x, hx, -⟩ := Option.bind_eq_some_iff.mp ((Outcome.toOption_bind _ _).symm.trans h)
    exact ⟨.inl rfl, by simpa using operand hx⟩
  · obtain ⟨x, hx, h⟩ := Option.bind_eq_some_iff.mp ((Outcome.toOption_bind _ _).symm.trans h)
    obtain ⟨y, hy, -⟩ := Option.bind_eq_some_iff.mp ((Outcome.toOption_bind _ _).symm.trans h)
    exact ⟨.inr rfl, by simpa using ⟨operand hx, operand hy⟩⟩
  · cases h

namespace Instruction.Fits

variable {t t' : Table} {i : Instruction} {f : Handle → Handle}

/-- A renaming that keeps kinds. -/
theorem rename (fits : i.Fits t)
    (kinds : ∀ h kind, t.kind? h = some kind → t'.kind? (f h) = some kind) :
    (i.rename f).Fits t' := by
  cases fits with
  | unary ha found hw => exact .unary (kinds _ _ ha) found (kinds _ _ hw)
  | binary ha hb found hw => exact .binary (kinds _ _ ha) (kinds _ _ hb) found (kinds _ _ hw)
  | assemble items hw =>
      refine .assemble (fun h hh => ?_) (kinds _ _ hw)
      rw [← List.map_flatten] at hh
      obtain ⟨k, hk, rfl⟩ := List.mem_map.mp hh
      obtain ⟨kind, found, other⟩ := items k hk
      exact ⟨kind, kinds k kind found, other⟩
  | extract ha selects hw => exact .extract (kinds _ _ ha) (selects.rename kinds) (kinds _ _ hw)
  | element ha count integers hw =>
      refine .element (kinds _ _ ha) (by simpa using count) (fun h hh => ?_) (kinds _ _ hw)
      obtain ⟨k, hk, rfl⟩ := List.mem_map.mp hh
      exact kinds k _ (integers k hk)
  | copy hs ht found => exact .copy (kinds _ _ hs) (kinds _ _ ht) found
  | copyRange hs ht found selects =>
      exact .copyRange (kinds _ _ hs) (kinds _ _ ht) found (selects.rename kinds)

/-- A table in which kinds are kept. -/
theorem mono (fits : i.Fits t) (kinds : ∀ h kind, t.kind? h = some kind → t'.kind? h = some kind) :
    i.Fits t' := by
  rw [← Instruction.rename_id i]
  exact fits.rename kinds

/-- What decides on the kind of the target is in keeping with it. -/
theorem typed (fits : i.Fits t) : i.Typed t := by
  have computing {form : Form} (computing : form.Computing) {inputs : List Handle} {w : Handle}
      (hw : t.kind? w = some form.kind) : Instruction.Typed t
        ⟨form.primitive, form.signature, inputs, some w, none, none, form.dimensions⟩ := by
    constructor
    · rintro _ ⟨⟩ (part | assemble)
      · simp [Instruction.isPartial] at part
      · rw [hw, computing.assemble assemble]
    · rintro _ ⟨⟩ closed
      rw [hw, computing.closed _ rfl rfl closed]
  cases fits with
  | unary ha found hw => exact computing (Form.computing_of_unary? found) hw
  | binary ha hb found hw => exact computing (Form.computing_of_binary? found) hw
  | assemble items hw =>
      exact ⟨by rintro _ ⟨⟩ _; exact hw, by rintro _ ⟨⟩ closed; simp [Folding.isClosed] at closed⟩
  | extract ha selects hw =>
      exact ⟨by rintro _ ⟨⟩ _; exact hw, by rintro _ ⟨⟩ closed; simp [Folding.isClosed] at closed⟩
  | element ha count integers hw =>
      exact ⟨by rintro _ ⟨⟩ h; simp [Instruction.isPartial] at h,
        by rintro _ ⟨⟩ closed; simp [Folding.isClosed] at closed⟩
  | copy hs ht found =>
      have primitive := Form.primitive_of_copy? found
      exact ⟨by rintro _ ⟨⟩ h; simp [Instruction.isPartial, Construction.copying, primitive] at h,
        by rintro _ ⟨⟩ closed; simp [Folding.isClosed, Construction.copying, primitive] at closed⟩
  | copyRange hs ht found selects =>
      obtain ⟨primitive, rfl⟩ := Form.primitive_of_copyRange? found
      exact ⟨by rintro _ ⟨⟩ h; exact ht,
        by rintro _ ⟨⟩ closed; simp [Folding.isClosed, Construction.copying, primitive] at closed⟩

end Instruction.Fits

namespace Construction

variable {w w' : Workspace} {i : Instruction}

theorem kind?_create {kind : Kind} (hk : kind ≠ .sequence) (w : Workspace) :
    (w.create kind).2.table.kind? (w.create kind).1 = some kind := by
  rw [Table.kind?, Workspace.get?_create, Workspace.create_handle, if_pos rfl, Option.map_some,
    (Workspace.nextTemporary_spec _ _).2.2.2 hk]

theorem kind?_extend (w : Workspace) (kind : Kind) {h : Handle} {k : Kind}
    (hh : w.table.kind? h = some k) : (w.create kind).2.table.kind? h = some k :=
  (w.extends_create kind).kind? hh

/-- Checks on all of a list pass on each member. -/
theorem of_forM {α : Type} {f : α → Construction Unit} (observes : ∀ a, Observes (f a)) {xs : List α}
    (ran : Yields (xs.forM f) w () w') : ∀ x ∈ xs, Yields (f x) w () w := by
  induction xs generalizing w' with
  | nil => simp
  | cons x xs ih =>
      rw [List.forM_eq_forM, List.forM_cons] at ran
      obtain ⟨_, first, rest⟩ := (observes x).of_bind ran
      exact List.forall_mem_cons.mpr ⟨first, ih rest⟩

theorem fits_of_unary {p : Primitive} {a : Handle} (ran : Yields (unary p a) w i w') :
    i.Fits w'.table := by
  obtain ⟨kind, hk, ran⟩ := of_kindOf (of_guarded ran)
  split at ran
  · next form found =>
      obtain ⟨rfl, rfl⟩ := of_allocate ran
      exact .unary (kind?_extend w _ hk) found (kind?_create (Form.kind_of_unary? found) w)
  · exact absurd ran (not_yields_mismatch p [a])

theorem fits_of_binary {p : Primitive} {a b : Handle} (ran : Yields (binary p a b) w i w') :
    i.Fits w'.table := by
  obtain ⟨q, -, ran⟩ := (observes_screened p a b).of_bind ran
  obtain ⟨left, hl, ran⟩ := of_kindOf (of_guarded ran)
  obtain ⟨right, hr, ran⟩ := of_kindOf ran
  split at ran
  · next form found =>
      obtain ⟨rfl, rfl⟩ := of_allocate ran
      exact .binary (kind?_extend w _ hl) (kind?_extend w _ hr) found
        (kind?_create (Form.kind_of_binary? found) w)
  · exact absurd ran (not_yields_mismatch q [a, b])

theorem fits_of_assemble {rows : List (List Handle)} (ran : Yields (assemble rows) w i w') :
    i.Fits w'.table := by
  have observes (h : Handle) : Observes (checkItem h) :=
    (observes_query _).bind fun _ => .ite (observes_unsupported _ _) (observes_pure ())
  obtain ⟨_, checked, ran⟩ := (observes_forM observes _).of_bind (of_guarded ran)
  obtain ⟨j, w₁, made, ran⟩ := ran.of_bind
  obtain ⟨rfl, rfl⟩ := of_allocate made
  cases ran
  refine .assemble (fun h hh => ?_) (kind?_create (by simp) w)
  obtain ⟨kind, hk, item⟩ := of_kindOf (of_forM observes checked h hh)
  refine ⟨kind, kind?_extend w _ hk, ?_⟩
  rintro rfl
  obtain ⟨_, _, rest⟩ := (observes_query _).of_bind item
  cases rest

theorem fits_of_extract {a : Handle} {range : List Handle} (ran : Yields (extract a range) w i w') :
    i.Fits w'.table := by
  obtain ⟨kind, hk, ran⟩ := of_kindOf (of_guarded ran)
  obtain ⟨matrix, ran⟩ := of_check ran
  obtain ⟨_, classified, ran⟩ := of_checkRange ran
  obtain ⟨j, w₁, made, ran⟩ := ran.of_bind
  obtain ⟨rfl, rfl⟩ := of_allocate made
  cases ran
  obtain rfl : kind = .matrix := by simpa using matrix
  have selects := (Addressing.selects_of_classify classified).rename (f := id)
    fun _ _ => kind?_extend w .matrix
  rw [List.map_id] at selects
  exact .extract (kind?_extend w _ hk) selects (kind?_create (by simp) w)

theorem fits_of_element {a : Handle} {indices : List Handle}
    (ran : Yields (element a indices) w i w') : i.Fits w'.table := by
  obtain ⟨kind, hk, ran⟩ := of_kindOf (of_guarded ran)
  obtain ⟨count, checks⟩ := of_check ran
  simp only [ne_eq, not_or, not_not, Nat.not_lt] at count
  obtain ⟨rfl, nonempty, few⟩ := count
  have observes (h : Handle) : Observes (do
      if (← kindOf h) ≠ .integer then mismatch .element (a :: indices)) :=
    (observes_query _).bind fun _ => .ite (observes_mismatch _ _) (observes_pure ())
  obtain ⟨_, checked, made⟩ := (observes_forM observes _).of_bind checks
  obtain ⟨rfl, rfl⟩ := of_allocate made
  have positive := List.length_pos_iff.mpr nonempty
  refine .element (kind?_extend w _ hk) (by omega) (fun h hh => kind?_extend w _ ?_)
    (kind?_create (by simp) w)
  obtain ⟨kind, hk, index⟩ := of_kindOf (of_forM observes checked h hh)
  by_cases integer : kind = .integer
  · rw [hk, integer]
  · rw [if_pos integer] at index
    exact absurd index (not_yields_mismatch _ _)

theorem fits_of_copy {source target : Handle} (ran : Yields (copy source target) w i w') :
    i.Fits w'.table := by
  obtain ⟨left, hl, ran⟩ := of_kindOf ran
  obtain ⟨right, hr, ran⟩ := of_kindOf ran
  split at ran
  · next form found =>
      cases ran
      exact .copy hl hr found
  · exact absurd ran (not_yields_mismatch _ _)

theorem fits_of_copyRange {source target : Handle} {range : List Handle}
    (ran : Yields (copyRange source target range) w i w') : i.Fits w'.table := by
  obtain ⟨left, hl, ran⟩ := of_kindOf ran
  obtain ⟨right, hr, ran⟩ := of_kindOf ran
  split at ran
  · next form found =>
      obtain ⟨_, classified, ran⟩ := of_checkRange ran
      cases ran
      exact .copyRange hl hr found (Addressing.selects_of_classify classified)
  · exact absurd ran (not_yields_mismatch _ _)

end Construction

/-- What a request makes fits. -/
theorem Request.fits_of_perform {r : Request} {w w' : Workspace} {i : Instruction}
    (ran : Yields r.perform w i w') : i.Fits w'.table := by
  cases r with
  | unary p a => exact Construction.fits_of_unary ran
  | binary p a b => exact Construction.fits_of_binary ran
  | assemble rows => exact Construction.fits_of_assemble ran
  | complex re im =>
      obtain ⟨_, -, ran⟩ := (Construction.observes_query _).of_bind ran
      cases ran
  | extract a range => exact Construction.fits_of_extract ran
  | element a indices => exact Construction.fits_of_element ran
  | copy source target => exact Construction.fits_of_copy ran
  | copyRange source target range => exact Construction.fits_of_copyRange ran

namespace Draft

/-- All instructions of the draft fit. -/
def Fits (d : Draft) : Prop := ∀ i ∈ d.program.instructions, i.Fits d.workspace.table

variable {d d' : Draft}

/-- No step changes a kind. -/
theorem Step.kind? {folder : Folder} (step : Step folder d d') (h : Handle) :
    d'.workspace.table.kind? h = d.workspace.table.kind? h := by
  cases step with
  | fold o e _ =>
      rw [Table.kind?_eq_content?, Table.kind?_eq_content?, Folding.content?_fold]
  | restrict p kept => rfl
  | replace hs ht => exact d.kind?_replace _ _ h

theorem Step.fits {folder : Folder} (step : Step folder d d') (fits : d.Fits) : d'.Fits := by
  have kinds (h : Handle) (kind : Kind) (hk : d.workspace.table.kind? h = some kind) :
      d'.workspace.table.kind? h = some kind := (step.kind? h).trans hk
  cases step with
  | fold o e _ => exact fun i hi => (fits i hi).mono kinds
  | restrict p kept => exact fun i hi => fits i (kept hi)
  | @replace source target kind hs ht =>
      intro i hi
      obtain ⟨j, hj, rfl⟩ := List.mem_map.mp hi
      refine (fits j hj).rename fun h k hk => kinds _ k ?_
      rw [Handle.replace]
      split
      · next same => rw [ht, ← hk, same, hs]
      · exact hk

end Draft
end MatrixCode
