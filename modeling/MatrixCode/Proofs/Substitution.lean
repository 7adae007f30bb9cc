import Mathlib.Data.List.Forall2
import MatrixCode.Proofs.Replacement

/-!
Substitution in a program. What an instruction refers to stands partly in the instruction and partly in ranges
of the table. Such a range may be shared, and it is then gone through once for each instruction that uses it.
All the same, putting one variable for another of its kind renames exactly what each instruction refers to:
no occurrence is left out, and none is renamed into something else by a later round.
-/

namespace MatrixCode

/-- The same operation on as many operands. -/
structure Instruction.SameForm (i j : Instruction) : Prop where
  primitive : j.primitive = i.primitive
  signature : j.signature = i.signature
  dimensions : j.dimensions = i.dimensions
  inputs : j.inputs.length = i.inputs.length
  output : j.output.isSome = i.output.isSome
  range : j.range.map List.length = i.range.map List.length
  blocks : j.blocks.map (List.map List.length) = i.blocks.map (List.map List.length)

theorem Instruction.sameForm_rename (f : Handle → Handle) (i : Instruction) : i.SameForm (i.rename f) where
  primitive := rfl
  signature := rfl
  dimensions := rfl
  inputs := List.length_map f
  output := Option.isSome_map
  range := by simp [rename, Function.comp_def]
  blocks := by simp [rename, Function.comp_def]

/-- A renaming enters nothing and takes nothing away. -/
theorem Table.frame_renameWithin (t : Table) (source target : Handle) (hs : List Handle) :
    (t.renameWithin source target hs).size = t.size ∧
      (t.renameWithin source target hs).literals = t.literals := by
  unfold renameWithin
  induction hs generalizing t with
  | nil => exact ⟨rfl, rfl⟩
  | cons h hs ih =>
      rw [List.foldl_cons]
      obtain ⟨size, literals⟩ := ih (if h = source then t else
        t.modify h (Variable.mapRange (Handle.replace source target)))
      rw [size, literals]
      split
      · exact ⟨rfl, rfl⟩
      · exact ⟨Array.size_modify, rfl⟩

/-- What an instruction refers to can still be listed, and the list is the renamed one. -/
theorem Draft.RenamedBy.references_rename {f : Handle → Handle} {d d' : Draft} (r : RenamedBy f d d')
    (m : Table.Keeps f d.workspace.table) {i : Instruction} (hi : i ∈ d.program.instructions)
    (existing : ∀ h ∈ i.range.getD [], (d.workspace.table.get? h).isSome) :
    ∃ hs, i.references d.workspace.table = .ok hs ∧
      (i.rename f).references d'.workspace.table = .ok (hs.map f) := by
  refine ⟨i.mentions d.workspace.table, Outcome.toOption_eq_some.mp ?_, Outcome.toOption_eq_some.mp ?_⟩
  · rw [Instruction.toOption_references, if_pos existing]
  · have existing' : ∀ h ∈ (i.rename f).range.getD [], (d'.workspace.table.get? h).isSome := by
      rw [Instruction.getD_rename_range]
      simpa [r.isSome_get? m] using existing
    rw [Instruction.toOption_references, if_pos existing', r.mentions_rename m hi]

namespace Program

variable {p p' : Program} {t t' : Table} {source target : Handle}

/-- A substitution renames every draft that holds the program. -/
theorem renamedBy_of_substitute (sequence : t.kind? source ≠ some .sequence)
    (substituted : p.substitute source target t = (p', t')) (temporaries : Temporaries) :
    Draft.RenamedBy (Handle.replace source target) ⟨⟨t, temporaries⟩, p⟩ ⟨⟨t', temporaries⟩, p'⟩ := by
  obtain ⟨rfl, rfl⟩ := Prod.mk.inj substituted
  refine ⟨rfl, fun h => ?_⟩
  rw [← (Draft.RenamedBy.replace ⟨⟨t, temporaries⟩, p⟩ target sequence).entry h, Draft.table_replace]

/-- Substitution is an exact renaming of what each instruction refers to. It leaves the instructions in place
and in form, and of the table it changes only the ranges that the program uses. -/
theorem references_substitute {kind : Kind} (existing : ∀ h ∈ p.ranges, (t.get? h).isSome)
    (old : t.kind? source = some kind) (new : t.kind? target = some kind) (plain : kind ≠ .sequence)
    (substituted : p.substitute source target t = (p', t')) :
    List.Forall₂ (fun i i' => i.SameForm i' ∧ ∃ hs, i.references t = .ok hs ∧
      i'.references t' = .ok (hs.map (Handle.replace source target))) p.instructions p'.instructions ∧
    p'.output = p.output.map (Handle.replace source target) ∧
    (∀ h ∈ p.ranges, t'.get? h = (t.get? h).map (Variable.mapRange (Handle.replace source target))) ∧
    (∀ h, h ∉ p.ranges ∨ t.kind? h ≠ some .sequence → t'.get? h = t.get? h) ∧
    t'.size = t.size ∧ t'.literals = t.literals := by
  have sequence : t.kind? source ≠ some .sequence := by
    rw [old]
    exact fun same => plain (Option.some.inj same)
  have keeps : Table.Keeps (Handle.replace source target) t := .replace (old.trans new.symm) sequence
  have renamed := renamedBy_of_substitute sequence substituted default
  obtain ⟨rfl, rfl⟩ := Prod.mk.inj substituted
  refine ⟨?_, rfl, fun h used => ?_, fun h other => ?_, t.frame_renameWithin source target p.ranges⟩
  · refine List.forall₂_map_right_iff.mpr (List.forall₂_same.mpr fun i hi => ⟨i.sameForm_rename _, ?_⟩)
    exact renamed.references_rename keeps hi
      fun h used => existing h (List.mem_flatMap.mpr ⟨i, hi, used⟩)
  · simpa only [if_pos used] using renamed.entry h
  · refine (renamed.entry h).trans ?_
    cases found : t.get? h with
    | none => rfl
    | some v =>
        rcases other with unused | noRange
        · simp only [if_neg unused, Option.map_some]
        · have kind : v.kind ≠ .sequence := by simpa [Table.kind?, found] using noRange
          simp only [Variable.mapRange_of_kind kind, ite_self, Option.map_some]

/-- Two extractions from `A` that share a range. The range names the first integer four times, once in a union
inside the union; the second extraction takes the same integer for its columns. -/
def sharing : Program where
  instructions :=
    [⟨.extract, .bare, [⟨2⟩], some ⟨6⟩, some [⟨5⟩], none, []⟩,
      ⟨.extract, .bare, [⟨2⟩], some ⟨7⟩, some [⟨5⟩, ⟨3⟩], none, []⟩]
  output := some ⟨7⟩

end Program

def Table.sharing : Table where
  entries := #[.integerLiteral 0, .integerLiteral 1, .named "A" .matrix, .fresh "ti0" .integer,
    .fresh "ti1" .integer,
    .named "seq5" (.sequence (.union [.span ⟨1⟩ (some ⟨3⟩) ⟨3⟩, .union [.list [⟨3⟩, ⟨4⟩]],
      .toEnd (some ⟨3⟩) none])),
    .fresh "tm0" .matrix, .fresh "tm1" .matrix]
  literals := []

/-- The shared range is gone through twice, and each instruction refers to the second integer instead. -/
theorem Program.references_sharing :
    (∀ h ∈ sharing.ranges, (Table.sharing.get? h).isSome) ∧
    ∃ p' t', sharing.substitute ⟨3⟩ ⟨4⟩ .sharing = (p', t') ∧
      p'.instructions.map (·.references t') =
        [.ok [⟨2⟩, ⟨1⟩, ⟨4⟩, ⟨4⟩, ⟨4⟩, ⟨4⟩, ⟨4⟩, ⟨6⟩],
          .ok [⟨2⟩, ⟨1⟩, ⟨4⟩, ⟨4⟩, ⟨4⟩, ⟨4⟩, ⟨4⟩, ⟨4⟩, ⟨7⟩]] := by
  have existing : ∀ h ∈ sharing.ranges, (Table.sharing.get? h).isSome := by decide
  have first : Table.sharing.kind? ⟨3⟩ = some .integer := rfl
  have second : Table.sharing.kind? ⟨4⟩ = some .integer := rfl
  refine ⟨existing, _, _, rfl, ?_⟩
  obtain ⟨renamed, -⟩ := references_substitute existing first second (by decide) rfl
  obtain _ | ⟨⟨-, hs, listed, after⟩, _ | ⟨⟨-, hs', listed', after'⟩, -⟩⟩ := renamed
  obtain rfl := Except.ok.inj listed
  obtain rfl := Except.ok.inj listed'
  exact congrArg₂ (fun x y => [x, y]) after after'

end MatrixCode
