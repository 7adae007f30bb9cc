import MatrixCode.Optimizer.Basic
import MatrixCode.Proofs.Liveness

/-!
Replacing variables in a draft. Replacements, one after the other, amount to one renaming
of the instructions and of the ranges that they use. What stands in the table otherwise is
left as it is, so a renaming between variables that look alike is not noticed by readers.
-/

namespace MatrixCode

namespace Handle

theorem replace_replace (source target h : Handle) :
    replace source target (replace source target h) = replace source target h := by
  by_cases hh : h = source
  · simp [replace, hh]
  · simp [replace, hh]

/-- Replaces one handle after the other. -/
def replaceAll (plan : List (Handle × Handle)) (h : Handle) : Handle :=
  plan.foldl (fun h pair => replace pair.1 pair.2 h) h

theorem replaceAll_append (plan plan' : List (Handle × Handle)) (h : Handle) :
    replaceAll (plan ++ plan') h = replaceAll plan' (replaceAll plan h) := by
  simp [replaceAll]

end Handle

namespace Variable

theorem content_mapRange (f : Handle → Handle) (v : Variable) :
    (v.mapRange f).content = v.content.map f := by
  unfold mapRange
  split <;> simp_all [Content.map]

@[simp] theorem temporary_mapRange (f : Handle → Handle) (v : Variable) :
    (v.mapRange f).temporary = v.temporary := by
  unfold mapRange
  split <;> rfl

@[simp] theorem mapRange_id (v : Variable) : v.mapRange id = v := by
  obtain ⟨name, content, temporary, constant, precedence⟩ := v
  cases content <;> simp [mapRange, IndexRange.map_id]

theorem mapRange_mapRange (f g : Handle → Handle) (v : Variable) :
    (v.mapRange f).mapRange g = v.mapRange (g ∘ f) := by
  obtain ⟨name, content, temporary, constant, precedence⟩ := v
  cases content <;> simp [mapRange, IndexRange.map_map]

theorem mapRange_of_kind {v : Variable} (hv : v.kind ≠ .sequence) (f : Handle → Handle) :
    v.mapRange f = v := by
  obtain ⟨name, content, temporary, constant, precedence⟩ := v
  cases content with
  | integer | double | matrix => rfl
  | sequence range => exact absurd rfl hv

end Variable

namespace Table

theorem get?_renameWithin (t : Table) (source target : Handle) (hs : List Handle) (h : Handle) :
    (t.renameWithin source target hs).get? h = (t.get? h).map fun v =>
      if h ∈ hs ∧ h ≠ source then v.mapRange (Handle.replace source target) else v := by
  unfold renameWithin
  induction hs generalizing t with
  | nil => simp
  | cons k hs ih =>
      have twice (v : Variable) : (v.mapRange (Handle.replace source target)).mapRange
          (Handle.replace source target) = v.mapRange (Handle.replace source target) := by
        rw [Variable.mapRange_mapRange]
        congr 1
        funext h
        exact Handle.replace_replace source target h
      rw [List.foldl_cons, ih]
      by_cases hk : k = source
      · rw [if_pos hk]
        congr 1
        funext v
        by_cases hh : h = k <;> simp_all
      · rw [if_neg hk, get?_modify]
        by_cases hh : h = k
        · subst hh
          cases t.get? h with
          | none => simp
          | some v => by_cases hm : h ∈ hs <;> simp [hm, hk, twice]
        · simp [hh]

/-- A renaming within kinds, and of no sequence. -/
structure Keeps (f : Handle → Handle) (t : Table) : Prop where
  kind? : ∀ h, t.kind? (f h) = t.kind? h
  fixed : ∀ h, t.kind? h = some .sequence → f h = h

/-- A renaming between variables that look alike, and of no sequence. -/
structure Merges (f : Handle → Handle) (t : Table) : Prop where
  alike : ∀ h, t.appearance? (f h) = t.appearance? h
  fixed : ∀ h, t.kind? h = some .sequence → f h = h

theorem Keeps.eq_iff {f : Handle → Handle} {t : Table} (m : Keeps f t) {h : Handle}
    (hh : t.kind? h = some .sequence) (k : Handle) : f k = h ↔ k = h := by
  constructor
  · rintro rfl
    exact (m.fixed k (by rw [← m.kind?, hh])).symm
  · rintro rfl
    exact m.fixed k hh

theorem fixed_replace {t : Table} {source : Handle} (target : Handle)
    (sequence : t.kind? source ≠ some .sequence) {h : Handle} (hh : t.kind? h = some .sequence) :
    Handle.replace source target h = h := by
  unfold Handle.replace
  split
  · next same => exact absurd (same ▸ hh) sequence
  · rfl

/-- The replacement of one variable by another of its kind. -/
theorem Keeps.replace {t : Table} {source target : Handle} (kind : t.kind? source = t.kind? target)
    (sequence : t.kind? source ≠ some .sequence) : Keeps (Handle.replace source target) t where
  kind? h := by
    unfold Handle.replace
    split
    · next hh => rw [hh, kind]
    · rfl
  fixed _ := fixed_replace target sequence

namespace Merges

variable {f : Handle → Handle} {t : Table}

theorem kind? (m : Merges f t) (h : Handle) : t.kind? (f h) = t.kind? h := by
  rw [kind?_eq_appearance?, kind?_eq_appearance?, m.alike]

theorem keeps (m : Merges f t) : Keeps f t := ⟨m.kind?, m.fixed⟩

/-- The replacement of one variable by another that looks like it. -/
theorem replace {source target : Handle} (alike : t.appearance? target = t.appearance? source)
    (sequence : t.kind? source ≠ some .sequence) : Merges (Handle.replace source target) t where
  alike h := by
    unfold Handle.replace
    split
    · next hh => rw [hh, alike]
    · rfl
  fixed _ := fixed_replace target sequence

end Merges
end Table

theorem Draft.table_replace (d : Draft) (source target : Handle) :
    (d.replace source target).workspace.table =
      d.workspace.table.renameWithin source target d.program.ranges := by
  simp only [replace, Program.substitute, Workspace.release]
  split <;> rfl

theorem Draft.isTemporary_replace (d : Draft) (source target h : Handle) :
    (d.replace source target).workspace.table.IsTemporary h ↔ d.workspace.table.IsTemporary h := by
  simp only [Table.IsTemporary, table_replace, Table.get?_renameWithin]
  cases d.workspace.table.get? h with
  | none => simp
  | some v => by_cases hm : h ∈ d.program.ranges ∧ h ≠ source <;> simp [hm]

/-- The second draft is the first with its handles renamed. -/
structure Draft.RenamedBy (f : Handle → Handle) (d d' : Draft) : Prop where
  instructions : d'.program.instructions = d.program.instructions.map (.rename f)
  entry : ∀ h, d'.workspace.table.get? h = (d.workspace.table.get? h).map fun v =>
    if h ∈ d.program.ranges then v.mapRange f else v

namespace Draft.RenamedBy

variable {f g : Handle → Handle} {d d' d'' : Draft}

theorem refl (d : Draft) : RenamedBy id d d where
  instructions := by
    rw [show Instruction.rename id = id from funext Instruction.rename_id, List.map_id]
  entry h := by
    cases d.workspace.table.get? h <;> simp

theorem appearance? (r : RenamedBy f d d') (h : Handle) :
    d'.workspace.table.appearance? h = d.workspace.table.appearance? h := by
  rw [Table.appearance?, Table.appearance?, r.entry, Option.map_map]
  congr 1
  funext v
  simp only [Function.comp_apply]
  split <;> simp

theorem kind? (r : RenamedBy f d d') (h : Handle) :
    d'.workspace.table.kind? h = d.workspace.table.kind? h := by
  rw [Table.kind?_eq_appearance?, Table.kind?_eq_appearance?, r.appearance?]

theorem isTemporary (r : RenamedBy f d d') (h : Handle) :
    d'.workspace.table.IsTemporary h ↔ d.workspace.table.IsTemporary h := by
  simp only [Table.IsTemporary, r.entry]
  cases d.workspace.table.get? h with
  | none => simp
  | some v => by_cases hm : h ∈ d.program.ranges <;> simp [hm]

theorem ranges (r : RenamedBy f d d') : d'.program.ranges = d.program.ranges.map f := by
  simp only [Program.ranges, r.instructions, List.flatMap_map, List.map_flatMap,
    Instruction.getD_rename_range]

/-- Renamings one after the other are one renaming. -/
theorem trans (r : RenamedBy f d d') (m : Table.Keeps f d.workspace.table) (r' : RenamedBy g d' d'') :
    RenamedBy (g ∘ f) d d'' where
  instructions := by
    rw [r'.instructions, r.instructions, List.map_map]
    congr 1
    funext i
    simp [Instruction.rename, Function.comp_def]
  entry h := by
    rw [r'.entry, r.entry, r.ranges, Option.map_map]
    cases hv : d.workspace.table.get? h with
    | none => rfl
    | some v =>
        simp only [Option.map_some, Function.comp_apply, Option.some.injEq]
        by_cases hk : v.kind = .sequence
        · have mem : h ∈ d.program.ranges.map f ↔ h ∈ d.program.ranges := by
            simp [m.eq_iff (show d.workspace.table.kind? h = some .sequence by
              simp [Table.kind?, hv, hk])]
          simp only [mem]
          split
          · exact Variable.mapRange_mapRange f g v
          · rfl
        · simp [Variable.mapRange_of_kind hk]

/-- One replacement. -/
theorem replace (d : Draft) {source : Handle} (target : Handle)
    (sequence : d.workspace.table.kind? source ≠ some .sequence) :
    RenamedBy (Handle.replace source target) d (d.replace source target) where
  instructions := rfl
  entry h := by
    rw [table_replace, Table.get?_renameWithin]
    cases hv : d.workspace.table.get? h with
    | none => rfl
    | some v =>
        simp only [Option.map_some, Option.some.injEq]
        by_cases hs : h = source
        · have hk : v.kind ≠ .sequence := fun hk =>
            sequence (by rw [← hs, Table.kind?, hv, Option.map_some, hk])
          simp [Variable.mapRange_of_kind hk]
        · simp [hs]

/-- Replacements one after the other, each of a variable by one of its kind. -/
theorem replaceAll (d : Draft) (plan : List (Handle × Handle))
    (kinds : ∀ pair ∈ plan, d.workspace.table.kind? pair.1 = d.workspace.table.kind? pair.2 ∧
      d.workspace.table.kind? pair.1 ≠ some .sequence) :
    RenamedBy (Handle.replaceAll plan) d
      (plan.foldl (fun d (later, earlier) => d.replace later earlier) d) := by
  induction plan generalizing d with
  | nil => exact refl d
  | cons pair plan ih =>
      obtain ⟨later, earlier⟩ := pair
      obtain ⟨⟨same, sequence⟩, rest⟩ := List.forall_mem_cons.mp kinds
      have first := replace d earlier sequence
      refine first.trans (.replace same sequence) (ih (d.replace later earlier) fun pair hp => ?_)
      rw [first.kind?, first.kind?]
      exact rest pair hp

section Readers

variable (r : RenamedBy f d d') (m : Table.Keeps f d.workspace.table)

include r m

/-- A range operand stands for the renamed range. -/
theorem content? {h : Handle} (hh : h ∈ d.program.ranges) :
    d'.workspace.table.content? (f h) = (d.workspace.table.content? h).map (.map f) := by
  have kinds := (r.kind? (f h)).trans (m.kind? h)
  by_cases hk : d.workspace.table.kind? h = some .sequence
  · rw [m.fixed h hk, Table.content?, Table.content?, r.entry, Option.map_map, Option.map_map]
    congr 1
    funext v
    simp only [Function.comp_apply, if_pos hh]
    exact Variable.content_mapRange f v
  · rw [Table.kind?_eq_content?, Table.kind?_eq_content?] at kinds
    rw [Table.kind?_eq_content?] at hk
    cases hc : d.workspace.table.content? h with
    | none => simpa [hc] using kinds
    | some c =>
        rw [hc, Option.map_some, Option.map_eq_some_iff] at kinds
        obtain ⟨c', hc', same⟩ := kinds
        have plain : c.kind ≠ .sequence := fun hs => hk (by rw [hc, Option.map_some, hs])
        rw [hc', Option.map_some, Content.map_of_kind plain, Content.eq_of_kind plain same]

theorem sources_rename {i : Instruction} (hi : i ∈ d.program.instructions) :
    (i.rename f).sources d'.workspace.table = (i.sources d.workspace.table).map f :=
  Instruction.sources_rename fun _ hk => r.content? m (List.mem_flatMap.mpr ⟨i, hi, hk⟩)

theorem mentions_rename {i : Instruction} (hi : i ∈ d.program.instructions) :
    (i.rename f).mentions d'.workspace.table = (i.mentions d.workspace.table).map f := by
  rw [Instruction.mentions, r.sources_rename m hi, Instruction.rename_output, Option.toList_map,
    ← List.map_append, Instruction.mentions]

theorem isSome_get? (h : Handle) :
    (d'.workspace.table.get? (f h)).isSome = (d.workspace.table.get? h).isSome := by
  have same := (r.kind? (f h)).trans (m.kind? h)
  simp only [Table.kind?] at same
  rw [← Option.isSome_map, same, Option.isSome_map]

theorem covered {i : Instruction} (hi : i ∈ d.program.instructions)
    (c : i.Covered d.workspace.table) : (i.rename f).Covered d'.workspace.table := by
  constructor
  · intro h hh
    rw [Instruction.getD_rename_range] at hh
    obtain ⟨k, hk, rfl⟩ := List.mem_map.mp hh
    exact (r.isSome_get? m k).trans (c.range k hk)
  · intro h hh
    rw [r.mentions_rename m hi] at hh
    obtain ⟨k, hk, rfl⟩ := List.mem_map.mp hh
    exact (r.isSome_get? m k).trans (c.mentioned k hk)

theorem typed {i : Instruction} (typed : i.Typed d.workspace.table) :
    (i.rename f).Typed d'.workspace.table :=
  typed.rename fun h => (r.kind? (f h)).trans (m.kind? h)

end Readers

/-- Readers of the instructions do not notice the renaming of the table. -/
theorem renames (r : RenamedBy f d d') (m : Table.Merges f d.workspace.table) {is : List Instruction}
    (hi : is ⊆ d.program.instructions) : Renames f d.workspace.table d'.workspace.table is where
  source _ _ k _ := (r.appearance? (f k)).trans (m.alike k)
  target _ _ w _ := (r.appearance? (f w)).trans (m.alike w)
  content i him _ hk := r.content? m.keeps (List.mem_flatMap.mpr ⟨i, hi him, hk⟩)

end Draft.RenamedBy
end MatrixCode
