import MatrixCode.Proofs.Books

/-!
Grounded tables. When the ranges in a table are over variables of the table, every range operand
can be classified, and everything that an instruction mentions is there. Steps of the optimizer
put variables of the table into ranges, so a table stays grounded.
-/

namespace MatrixCode

/-- The ranges in the table are over variables of the table. -/
def Table.Grounded (t : Table) : Prop :=
  ∀ h range, t.range? h = some range → ∀ k ∈ range.referenced, (t.get? k).isSome

namespace Table.Grounded

variable {t t' : Table}

/-- More entries, with ranges over variables of the table. -/
theorem extend (grounded : t.Grounded) (ext : t.Extends t')
    (new : ∀ h range, t.get? h = none → t'.range? h = some range →
      ∀ k ∈ range.referenced, (t'.get? k).isSome) : t'.Grounded := by
  intro h range found k hk
  cases hv : t.get? h with
  | none => exact new h range hv found k hk
  | some v =>
      rw [range?, ext h v hv] at found
      refine ext.isSome_get? (grounded h range ?_ k hk)
      rw [range?, hv]
      exact found

/-- The same ranges in a table with the same entries. -/
theorem congr (grounded : t.Grounded) (same : ∀ h, t'.content? h = t.content? h) : t'.Grounded := by
  intro h range found k hk
  have entry := same k
  rw [range?_congr (same h)] at found
  rw [← Option.isSome_map (f := Variable.content), show (t'.get? k).map _ = _ from entry]
  simpa [content?] using grounded h range found k hk

theorem renameWithin (grounded : t.Grounded) {source target : Handle}
    (there : (t.get? target).isSome) (hs : List Handle) :
    (t.renameWithin source target hs).Grounded := by
  have found (k : Handle) : ((t.renameWithin source target hs).get? k).isSome = (t.get? k).isSome := by
    rw [get?_renameWithin, Option.isSome_map]
  intro h range listed k hk
  rw [found]
  rw [range?, get?_renameWithin] at listed
  obtain ⟨_, renamed, listed⟩ := Option.bind_eq_some_iff.mp listed
  obtain ⟨v, hv, rfl⟩ := Option.map_eq_some_iff.mp renamed
  split at listed
  · cases hc : v.content with
    | integer | double | matrix => simp [Variable.range?, Variable.mapRange, hc] at listed
    | sequence r =>
        obtain rfl : r.map _ = range := by simpa [Variable.range?, Variable.mapRange, hc] using listed
        rw [IndexRange.referenced_map] at hk
        obtain ⟨x, hx, rfl⟩ := List.mem_map.mp hk
        rw [Handle.replace]
        split
        · exact there
        · exact grounded h r (by simp [range?, hv, Variable.range?, hc]) x hx
  · exact grounded h range (by simp [range?, hv, listed]) k hk

end Table.Grounded

theorem Draft.Step.grounded {folder : Folder} {d d' : Draft} (step : Step folder d d')
    (grounded : d.workspace.table.Grounded) : d'.workspace.table.Grounded := by
  cases step with
  | fold h e _ => exact grounded.congr (Folding.content?_fold d.workspace h e)
  | restrict p kept => exact grounded
  | replace hs ht =>
      rw [Draft.table_replace]
      exact grounded.renameWithin (Table.isSome_get?_of_kind? ht) _

theorem Workspace.Made.grounded {w w' : Workspace} (made : w.Made w') (grounded : w.table.Grounded) :
    w'.table.Grounded := by
  refine grounded.extend made.extends fun h range missing found => ?_
  cases made with
  | same => simp [Table.range?, missing] at found
  | created kind =>
      rw [Table.range?, Workspace.get?_create] at found
      split at found
      · cases kind <;> simp [nextTemporary, Variable.fresh, Variable.range?] at found
      · simp [missing] at found
  | undone => simp [Table.range?, Workspace.get?_rollback, missing] at found

namespace Table.Grounded

variable {t : Table} {range : List Handle} {a : Addressing}

/-- What is read through a variable of the table is in the table. -/
theorem isSome_through (grounded : t.Grounded) {h : Handle} (found : (t.get? h).isSome) :
    ∀ k ∈ t.through h, (t.get? k).isSome := by
  intro k hk
  rw [through] at hk
  cases hr : t.range? h with
  | none =>
      obtain rfl : k = h := by simpa [hr] using hk
      exact found
  | some range => exact grounded h range hr k (by simpa [hr] using hk)

/-- The form of a range is seen from its step. -/
theorem isSome_ofRange {r : IndexRange} (found : ∀ k ∈ r.referenced, (t.get? k).isSome) :
    (Extent.ofRange t r).toOption.isSome := by
  have unit (step : Option Handle) (hs : ∀ k ∈ step.toList, (t.get? k).isSome) :
      (Extent.isUnitStep t step).toOption.isSome := by
    cases step with
    | none => rfl
    | some k => simpa [Extent.isUnitStep, Option.isSome_bind] using hs k (by simp)
  cases r with
  | list items | union ranges => rfl
  | span first step last =>
      obtain ⟨isUnit, hu⟩ := Option.isSome_iff_exists.mp
        (unit step fun k hk => found k (by simp [IndexRange.referenced, Option.mem_toList.mp hk]))
      rw [Extent.ofRange, Outcome.toOption_bind, hu]
      cases isUnit <;> rfl
  | toEnd first step =>
      obtain ⟨isUnit, hu⟩ := Option.isSome_iff_exists.mp
        (unit step fun k hk => found k (by simp [IndexRange.referenced, Option.mem_toList.mp hk]))
      rw [Extent.ofRange, Outcome.toOption_bind, hu]
      cases isUnit <;> rfl

theorem isSome_classify_operand (grounded : t.Grounded) {h : Handle} {kind : Kind}
    (hk : t.kind? h = some kind) (other : kind ≠ .matrix) :
    (Extent.classify t h).toOption.isSome := by
  obtain ⟨v, hv, rfl⟩ := Option.map_eq_some_iff.mp hk
  rw [Extent.classify, Outcome.toOption_bind, toOption_lookup, hv, Option.bind_some]
  cases hc : v.content with
  | integer | double => rfl
  | matrix => exact absurd (by simp [Variable.kind, Content.kind, hc]) other
  | sequence range =>
      exact isSome_ofRange fun k => grounded h range (by simp [range?, hv, Variable.range?, hc]) k

/-- Operands that select can be classified. -/
theorem isSome_classify (grounded : t.Grounded) (selects : t.Selects range) :
    (Addressing.classify t range).toOption.isSome := by
  have operand (h : Handle) (hh : h ∈ range) : (Extent.classify t h).toOption.isSome := by
    obtain ⟨kind, hk, other⟩ := selects.operand h hh
    exact grounded.isSome_classify_operand hk other
  match range, selects.count with
  | [elements], _ =>
      obtain ⟨x, hx⟩ := Option.isSome_iff_exists.mp (operand elements (by simp))
      simp [Addressing.classify, hx]
  | [rows, cols], _ =>
      obtain ⟨x, hx⟩ := Option.isSome_iff_exists.mp (operand rows (by simp))
      obtain ⟨y, hy⟩ := Option.isSome_iff_exists.mp (operand cols (by simp))
      simp [Addressing.classify, hx, hy]

/-- The operands that select are in the table, with what stands in their ranges. -/
theorem isSome_selected (grounded : t.Grounded) (selects : t.Selects range) :
    (∀ h ∈ range, (t.get? h).isSome) ∧ ∀ h ∈ range.flatMap t.through, (t.get? h).isSome := by
  have operands (h : Handle) (hh : h ∈ range) : (t.get? h).isSome := by
    obtain ⟨kind, found, -⟩ := selects.operand h hh
    exact isSome_get?_of_kind? found
  refine ⟨operands, fun h hh => ?_⟩
  obtain ⟨k, hk, through⟩ := List.mem_flatMap.mp hh
  exact grounded.isSome_through (operands k hk) h through

/-- What is addressed is in the table. -/
theorem isSome_addressed (grounded : t.Grounded) (selects : t.Selects range)
    (classified : (Addressing.classify t range).toOption = some a) :
    ∀ k ∈ a.handles, (t.get? k).isSome := by
  intro k hk
  exact (grounded.isSome_selected selects).2 k (Addressing.handles_of_classify classified k hk)

end Table.Grounded

/-- A fitting instruction mentions variables of the table only. -/
theorem Instruction.Fits.covered {t : Table} {i : Instruction} (fits : i.Fits t)
    (grounded : t.Grounded) : i.Covered t := by
  have found {h : Handle} {kind : Kind} (hk : t.kind? h = some kind) : (t.get? h).isSome :=
    Table.isSome_get?_of_kind? hk
  cases fits with
  | unary ha _ hw => exact ⟨by simp, by simp [mentions, sources, items, found ha, found hw]⟩
  | binary ha hb _ hw =>
      exact ⟨by simp, by simp [mentions, sources, items, found ha, found hb, found hw]⟩
  | assemble items hw =>
      refine ⟨by simp, fun h hh => ?_⟩
      simp only [mentions, sources, Instruction.items, List.nil_append, Option.getD_none,
        List.flatMap_nil, Option.getD_some, Option.toList_some, List.mem_append,
        List.mem_singleton] at hh
      obtain item | rfl := hh
      · obtain ⟨kind, hk, -⟩ := items h item
        exact found hk
      · exact found hw
  | extract ha selects hw =>
      obtain ⟨operands, through⟩ := grounded.isSome_selected selects
      refine ⟨operands, fun h hh => ?_⟩
      simp only [mentions, sources, items, Option.getD_some, Option.getD_none, List.flatten_nil,
        List.append_nil, Option.toList_some, List.mem_append, List.mem_singleton] at hh
      obtain (rfl | addressed) | rfl := hh
      · exact found ha
      · exact through h addressed
      · exact found hw
  | element ha count integers hw =>
      refine ⟨by simp, fun h hh => ?_⟩
      simp only [mentions, sources, items, Option.getD_none, List.flatMap_nil, List.flatten_nil,
        List.append_nil, Option.toList_some, List.mem_append, List.mem_cons,
        List.not_mem_nil, or_false] at hh
      obtain (rfl | index) | rfl := hh
      · exact found ha
      · exact found (integers h index)
      · exact found hw
  | copy hs ht _ =>
      exact ⟨by simp [Construction.copying],
        by simp [mentions, sources, items, Construction.copying, found hs, found ht]⟩
  | copyRange hs ht _ selects =>
      obtain ⟨operands, through⟩ := grounded.isSome_selected selects
      refine ⟨operands, fun h hh => ?_⟩
      simp only [mentions, sources, items, Construction.copying, Option.getD_some, Option.getD_none,
        List.flatten_nil, List.append_nil, Option.toList_some, List.mem_append,
        List.mem_singleton] at hh
      obtain (rfl | addressed) | rfl := hh
      · exact found hs
      · exact through h addressed
      · exact found ht

end MatrixCode
