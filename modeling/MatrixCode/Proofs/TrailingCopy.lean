import MatrixCode.Proofs.Agreement

/-!
Dropping the final copy. The target then takes the place of the source, so it is written
where the source was, and it must not be written or needed from there on. A program whose
final copy is dropped agrees with the program itself under this condition.
-/

namespace MatrixCode

theorem Matrix.copyInto_fill (a : Matrix Float) : a.copyInto (.fill a.rows a.cols 0.0) = .ok a := by
  simp [copyInto, checkTarget, fill, build, shape, pure, Except.pure, bind, Except.bind]

namespace Instruction

/-- A copy of a whole variable, in the form for the kinds of source and target. -/
structure Copies (t : Table) (i : Instruction) (source target : Handle) : Prop where
  form : ∃ left right form, t.kind? source = some left ∧ t.kind? target = some right ∧
    Form.copy? left right = some form ∧ i = Construction.copying form source target none

theorem Copies.output {t : Table} {i : Instruction} {source target : Handle}
    (c : i.Copies t source target) : i.output = some target := by
  obtain ⟨-, -, -, -, -, -, rfl⟩ := c.form
  rfl

theorem Copies.inputs {t : Table} {i : Instruction} {source target : Handle}
    (c : i.Copies t source target) : i.inputs = [source] := by
  obtain ⟨-, -, -, -, -, -, rfl⟩ := c.form
  rfl

theorem Copies.kind_source {t : Table} {i : Instruction} {source target : Handle}
    (c : i.Copies t source target) : t.kind? source ≠ some .sequence := by
  intro hs
  obtain ⟨left, right, form, hl, -, hf, -⟩ := c.form
  obtain rfl : left = .sequence := by simpa [hl] using hs
  cases right <;> cases hf

/-- A copy within a kind carries the value over. -/
theorem Copies.toOption_evaluate {t : Table} {i : Instruction} {source target : Handle}
    (c : i.Copies t source target) (same : t.kind? source = t.kind? target)
    (other : source ≠ target) {a : Appearance} (ha : t.appearance? source = some a)
    (plain : a.isLiteral = false) {m : Machine} {x : Value} (hx : m.store.get? source = some x)
    (kinded : t.kind? source = some x.kind) :
    (i.evaluate t m).toOption = some ⟨target, x, m.generator⟩ := by
  obtain ⟨left, right, form, hl, hr, hf, rfl⟩ := c.form
  obtain rfl : left = right := by simpa [hl, hr] using same
  obtain rfl : left = x.kind := by simpa [hl] using kinded
  rw [Instruction.toOption_evaluate]
  cases x with
  | integer n =>
      obtain rfl : form = ⟨.copy, .ii, .integer, []⟩ := by
        simpa [Form.copy?, Value.kind, eq_comm] using hf
      have read : (m.store.integer t source).toOption = some n := by
        simp [Store.toOption_integer, ha, plain, hx, Value.integer?]
      simp [Construction.copying, result, isPartial, hr, Value.kind, integerResult, read,
        Primitive.onWords]
  | double y =>
      obtain rfl : form = ⟨.copy, .ss, .double, []⟩ := by
        simpa [Form.copy?, Value.kind, eq_comm] using hf
      have read : (m.store.double t source).toOption = some y := by
        simp [Store.toOption_double, ha, plain, hx, Value.double?]
      simp [Construction.copying, result, isPartial, hr, Value.kind, doubleResult, read,
        Primitive.onDoubles, Primitive.onDouble]
  | matrix y =>
      obtain rfl : form = ⟨.copy, .mm, .matrix, Form.likeLeft⟩ := by
        simpa [Form.copy?, Value.kind, eq_comm] using hf
      have read : (m.store.matrix t source).toOption = some y := by
        simp [Store.toOption_matrix, Store.matrix?, hx, Value.matrix?]
      have copied := congrArg Except.toOption (Matrix.copyInto_fill y)
      simp [Construction.copying, result, isPartial, hr, Value.kind, matrixResult, read,
        writesInPlace, Ne.symm other, inPlaceResult, writeInto, targetShape, Form.likeLeft, matrixInput, copied]

end Instruction

/-- What matters where the final copy stands: its source, and the variables of the user but for
its target. -/
def Table.NeededAtCopy (t : Table) (source target h : Handle) : Prop :=
  h = source ∨ ¬t.IsTemporary h ∧ h ≠ target

/-- The target can stand in for the source in the instructions before the final copy: nothing
reads it there, it is not written once the source has a value, and the source has none to
begin with. -/
structure StandsIn (t : Table) (body : List Instruction) (source target : Handle) : Prop where
  temporary : t.IsTemporary source
  user : ¬t.IsTemporary target
  alike : t.appearance? target = t.appearance? source
  plain : ∀ a, t.appearance? source = some a → a.isLiteral = false
  unread : ∀ i ∈ body, target ∉ i.sources t
  opened : ¬Live t (t.NeededAtCopy source target) body source
  late : ∀ done i rest, body = done ++ i :: rest → i.output = some target →
    source ∉ Instruction.outputs done

/-- The final copy can be dropped: it copies a temporary into a variable of the user of the same
kind, and nothing before reads the target. -/
structure Program.EndsInCopy (p : Program) (t : Table) (body : List Instruction)
    (last : Instruction) (source target : Handle) : Prop where
  split : p.instructions = body ++ [last]
  isPlainCopy : last.isPlainCopy
  input : last.inputs.head? = some source
  output : last.output = some target
  temporary : t.IsTemporary source
  user : ¬t.IsTemporary target
  kind : t.kind? source = t.kind? target
  unread : ∀ i ∈ body, target ∉ i.sources t

namespace Program

/-- What the search for a final copy looks up is in the table. -/
structure Searchable (p : Program) (t : Table) : Prop where
  range : ∀ i ∈ p.instructions, ∀ h ∈ i.range.getD [], (t.get? h).isSome
  copied : ∀ i ∈ p.instructions, i.isPlainCopy → ∀ h, i.inputs.head? = some h ∨ i.output = some h →
    (t.get? h).isSome

variable {p : Program} {t : Table}

theorem searchable_of_covered (covered : ∀ i ∈ p.instructions, i.Covered t) : p.Searchable t where
  range i hi := (covered i hi).range
  copied i hi _ h hh := hh.elim (fun input => (covered i hi).input (List.mem_of_mem_head? input))
    fun output => (covered i hi).mentioned h (Instruction.mem_mentions_of_output output)

variable (searchable : p.Searchable t)

include searchable

theorem toOption_mapM_reads : (p.instructions.dropLast.mapM fun i => Instruction.reads i t).toOption =
    some (p.instructions.dropLast.map (·.sources t)) := by
  rw [Outcome.toOption_mapM]
  refine Outcome.mapM_eq_map fun i hi => ?_
  rw [Instruction.toOption_reads, if_pos (searchable.range i (List.dropLast_subset _ hi))]

/-- The final copy is looked up step by step; all steps that fail give the same answer. -/
theorem toOption_trailingCopy? : (p.trailingCopy? t).toOption =
    some (p.instructions.getLast?.bind fun last => last.inputs.head?.bind fun source =>
      last.output.bind fun target =>
        if last.isPlainCopy && (t.get? source).any (·.temporary) && !(t.get? target).any (·.temporary)
            && t.kind? source = t.kind? target
            && p.instructions.dropLast.all fun i => !(i.sources t).contains target then
          some (source, target)
        else none) := by
  have reads := toOption_mapM_reads searchable
  unfold trailingCopy?
  cases hl : p.instructions.getLast? with
  | none => rfl
  | some last =>
      have here := searchable.copied last (List.mem_of_mem_getLast? hl)
      cases plain : last.isPlainCopy with
      | false => cases last.inputs.head? <;> cases last.output <;> simp [plain]
      | true =>
          cases hs : last.inputs.head? with
          | none => simp [plain, hs]
          | some source =>
              cases ht : last.output with
              | none => simp [plain, hs, ht]
              | some target =>
                  obtain ⟨u, hu⟩ := Option.isSome_iff_exists.mp (here plain source (.inl hs))
                  obtain ⟨v, hv⟩ := Option.isSome_iff_exists.mp (here plain target (.inr ht))
                  have unread (body : List Instruction) :
                      (body.map (·.sources t)).flatten.contains target =
                        !body.all fun i => !(i.sources t).contains target := by
                    rw [Bool.eq_iff_iff]
                    simp
                  simp only [plain, hs, ht, Outcome.toOption_ite, Outcome.toOption_bind,
                    Table.toOption_fetch, hu, hv, reads, Option.bind_some, Outcome.toOption_pure, unread,
                    Table.kind?, Option.any_some, Option.map_some, Option.some.injEq]
                  generalize (p.instructions.dropLast.all fun i => !(i.sources t).contains target) = free
                  by_cases kind : u.kind = v.kind <;> cases u.temporary <;> cases v.temporary <;>
                    cases free <;> simp [kind]

theorem EndsInCopy.toOption_trailingCopy? {body : List Instruction} {last : Instruction}
    {source target : Handle} (ends : p.EndsInCopy t body last source target) :
    (p.trailingCopy? t).toOption = some (some (source, target)) := by
  obtain ⟨u, hu, temporary⟩ := ends.temporary
  have user : (t.get? target).any (·.temporary) = false := by
    rw [Option.any_eq_false]
    intro v hv
    by_contra temporary
    exact ends.user ⟨v, hv, by simpa using temporary⟩
  rw [Program.toOption_trailingCopy? searchable]
  simpa [ends.split, ends.isPlainCopy, ends.input, ends.output, hu, temporary, user, ends.kind]
    using ends.unread

omit searchable

theorem endsInCopy_of_trailingCopy? {source target : Handle}
    (found : (p.trailingCopy? t).toOption = some (some (source, target))) :
    ∃ body last, p.EndsInCopy t body last source target := by
  unfold trailingCopy? at found
  split at found
  case h_2 => cases found
  next last hl =>
  split at found
  case isTrue => cases found
  next plain =>
  split at found
  case h_2 => cases found
  next source' hs =>
  split at found
  case h_2 => cases found
  next target' ht =>
  simp only [Outcome.toOption_bind, Table.toOption_fetch, Outcome.toOption_ite,
    Outcome.toOption_pure] at found
  obtain ⟨u, hu, found⟩ := Option.bind_eq_some_iff.mp found
  obtain ⟨v, hv, found⟩ := Option.bind_eq_some_iff.mp found
  split at found
  case isTrue => cases found
  next fit =>
  obtain ⟨earlier, he, found⟩ := Option.bind_eq_some_iff.mp found
  split at found
  case isTrue => cases found
  next unread =>
  cases found
  simp only [Bool.or_eq_true, Bool.not_eq_true', decide_eq_true_eq, not_or, Bool.not_eq_false,
    Bool.not_eq_true, ne_eq, Decidable.not_not] at fit plain
  have reads : ∀ i ∈ p.instructions.dropLast, (i.reads t).toOption = some (i.sources t) := by
    rw [Outcome.toOption_mapM] at he
    intro i hi
    have known := Outcome.isSome_of_mapM he i hi
    rw [Instruction.toOption_reads] at known ⊢
    split at known
    · next ranges => rw [if_pos ranges]
    · cases known
  rw [Outcome.toOption_mapM, Outcome.mapM_eq_map reads] at he
  cases he
  refine ⟨p.instructions.dropLast, last, (List.dropLast_append_getLast? last hl).symm, plain, hs, ht,
    ⟨u, hu, fit.1.1⟩, ?_, by simp [Table.kind?, hu, hv, fit.2], fun i hi read => unread ?_⟩
  · rintro ⟨v', hv', temporary⟩
    rw [hv] at hv'
    cases hv'
    simp [fit.1.2] at temporary
  · simp only [List.contains_iff_mem, List.mem_flatten, List.mem_map]
    exact ⟨_, ⟨i, hi, rfl⟩, read⟩

end Program

namespace StandsIn

variable {t : Table} {body : List Instruction} {source target : Handle}

theorem ne (s : StandsIn t body source target) : source ≠ target := by
  rintro rfl
  exact s.user s.temporary

theorem source_mem_outputs (s : StandsIn t body source target) :
    source ∈ Instruction.outputs body := by
  by_contra unwritten
  have last : Live t (t.NeededAtCopy source target) [] source := .inl rfl
  have live := Live.of_notMem_outputs unwritten last
  rw [List.append_nil] at live
  exact s.opened live

/-- Replacing the source by the target keeps apart what is live. -/
theorem clear (s : StandsIn t body source target) : Clear (Handle.replace source target) t
    (t.NeededAtCopy source target) body := by
  have merged {h w : Handle} (same : Handle.replace source target h = Handle.replace source target w)
      (other : h ≠ w) : h = source ∧ w = target ∨ h = target ∧ w = source := by
    unfold Handle.replace at same
    split at same <;> split at same <;> simp_all
  intro done i rest split w hw
  -- while the target is written the source is not needed yet
  have unneeded (ht : w = target)
      (hl : Live t (t.NeededAtCopy source target) (i :: rest) source) : False := by
    subst ht
    refine s.opened ?_
    rw [split]
    exact Live.of_notMem_outputs (s.late done i rest split hw) hl
  refine ⟨fun h live same => ?_, fun _ k hk same => ?_⟩
  · by_contra other
    obtain ⟨rfl, rfl⟩ | ⟨rfl, rfl⟩ := merged same other
    · exact unneeded rfl (.inr ⟨by simp [hw, Ne.symm s.ne], live⟩)
    · obtain ⟨j, hj, used⟩ := live.used_or_out.resolve_right fun ⟨out, _⟩ =>
        out.elim (fun same => s.ne same.symm) fun ⟨_, ne⟩ => ne rfl
      obtain ⟨first, last, rfl⟩ := List.append_of_mem hj
      have written : j.output = some h := by
        rcases List.mem_append.mp used with read | written
        · exact absurd read (s.unread j (by simp [split]))
        · split at written
          · exact Option.mem_toList.mp written
          · cases written
      exact s.late (done ++ i :: first) j last (by simp [split]) written (by simp [hw])
  · by_contra other
    obtain ⟨rfl, rfl⟩ | ⟨rfl, rfl⟩ := merged same other
    · exact unneeded rfl (.inl (Instruction.mem_uses_of_mem_sources hk))
    · exact s.unread i (by simp [split]) hk

end StandsIn

theorem Program.EndsInCopy.mem_sources {p : Program} {t : Table} {body : List Instruction}
    {last : Instruction} {source target : Handle} (ends : p.EndsInCopy t body last source target) :
    source ∈ last.sources t :=
  Instruction.mem_sources_of_mem_inputs (List.mem_of_mem_head? ends.input)

/-- When the target can stand in for the source of a final copy. -/
theorem Program.EndsInCopy.standsIn {p : Program} {t : Table} {body : List Instruction}
    {last : Instruction} {source target : Handle} (ends : p.EndsInCopy t body last source target)
    (opened : ¬Live t (fun h => ¬t.IsTemporary h) p.instructions source)
    (plain : ∀ a, t.appearance? source = some a → a.isLiteral = false)
    (named : ∀ a, t.appearance? target = some a → a.isLiteral = false)
    (late : ∀ done i rest, body = done ++ i :: rest → i.output = some target →
      source ∉ Instruction.outputs done) : StandsIn t body source target where
  temporary := ends.temporary
  user := ends.user
  alike := Table.appearance?_eq_of_kind? ends.kind.symm named plain
  plain := plain
  unread := ends.unread
  opened live := by
    apply opened
    rw [ends.split, Live.append]
    exact live.mono fun _ => .inl (Instruction.mem_uses_of_mem_sources ends.mem_sources)
  late := late

namespace Draft

/-- The draft before its last instruction. -/
def withoutLast (d : Draft) : Draft :=
  { d with program := { d.program with instructions := d.program.instructions.dropLast } }

theorem RenamedBy.dropTrailingCopy (d : Draft) {source : Handle} (target : Handle)
    (sequence : d.workspace.table.kind? source ≠ some .sequence) :
    RenamedBy (Handle.replace source target) d.withoutLast (d.dropTrailingCopy source target) where
  instructions := rfl
  entry := (RenamedBy.replace d.withoutLast target sequence).entry

/-- The draft without its final copy is a renaming of what stands before the copy. -/
theorem renamedBy_drop {d : Draft} {last : Instruction} {source target : Handle}
    (copies : last.Copies d.workspace.table source target) :
    RenamedBy (Handle.replace source target) d.withoutLast (d.dropTrailingCopy source target) :=
  .dropTrailingCopy d target copies.kind_source

section Drop

variable {d : Draft} {body : List Instruction} {last : Instruction} {source target : Handle}
  (split : d.program.instructions = body ++ [last])
  (copies : last.Copies d.workspace.table source target)
  (stands : StandsIn d.workspace.table body source target)

include copies stands

theorem merges_drop : Table.Merges (Handle.replace source target) d.workspace.table :=
  .replace stands.alike copies.kind_source

include split

/-- The final copy carries over the value that the source has after the other instructions. -/
theorem advance_of_body {m : Machine} (typed : ∀ i ∈ body, i.Typed d.workspace.table)
    (kinded : m.store.WellKinded d.workspace.table)
    (done : (Machine.advance d.workspace.table body m).2 = []) :
    ∃ x, (Machine.advance d.workspace.table body m).1.store.get? source = some x ∧
      d.advance m = ((Machine.advance d.workspace.table body m).1.apply
        ⟨target, x, (Machine.advance d.workspace.table body m).1.generator⟩, []) := by
  have ran : Machine.advance d.workspace.table body m =
      ((Machine.advance d.workspace.table body m).1, []) := Prod.ext rfl done
  obtain ⟨x, hx⟩ := Option.isSome_iff_exists.mp
    (Machine.isSome_advance_of_mem done stands.source_mem_outputs)
  have kind := Machine.wellKinded_advance typed kinded source x hx
  have same : d.workspace.table.kind? source = d.workspace.table.kind? target := by
    rw [Table.kind?_eq_appearance?, Table.kind?_eq_appearance?, stands.alike]
  obtain ⟨a, ha, -⟩ := Option.map_eq_some_iff.mp (Table.kind?_eq_appearance? _ _ ▸ kind)
  have evaluated := copies.toOption_evaluate same stands.ne ha (stands.plain a ha) hx kind
  refine ⟨x, hx, ?_⟩
  rw [Draft.advance, split, Machine.advance_append ran]
  simp only [Machine.advance, evaluated]

theorem advance_eq_nil_iff {m : Machine} (typed : ∀ i ∈ body, i.Typed d.workspace.table)
    (kinded : m.store.WellKinded d.workspace.table) :
    (d.advance m).2 = [] ↔ (Machine.advance d.workspace.table body m).2 = [] := by
  constructor
  · intro done
    by_contra stopped
    rw [Draft.advance, split, Machine.advance_append_of_ne [last] stopped] at done
    simp at done
  · intro done
    obtain ⟨x, -, ran⟩ := advance_of_body split copies stands typed kinded done
    rw [ran]

/-- Without the final copy a run gets as far as before, with the value of the source in the
target. -/
theorem tracks_dropTrailingCopy (m : Machine) :
    ((d.dropTrailingCopy source target).advance m).2 =
        (Machine.advance d.workspace.table body m).2.map (.rename (Handle.replace source target)) ∧
      Tracks (Handle.replace source target)
        (Live d.workspace.table (d.workspace.table.NeededAtCopy source target)
          (Machine.advance d.workspace.table body m).2)
        (Machine.advance d.workspace.table body m).1
        ((d.dropTrailingCopy source target).advance m).1 := by
  have renamed := renamedBy_drop copies
  have kept : d.withoutLast.program.instructions = body := by simp [withoutLast, split]
  have instructions := renamed.instructions
  rw [kept] at instructions
  have start : Tracks (Handle.replace source target)
      (Live d.workspace.table (d.workspace.table.NeededAtCopy source target) body) m m := by
    refine ⟨fun h live => ?_, rfl⟩
    have other : h ≠ source := fun same => stands.opened (same ▸ live)
    rw [Handle.replace, if_neg other]
  have run := Tracks.advance
    (renamed.renames (merges_drop copies stands) (by rw [kept]; exact List.Subset.refl body)) stands.clear start
  rwa [← instructions, show d.withoutLast.workspace.table = d.workspace.table from rfl] at run

/-- Dropping the final copy keeps the meaning of a draft. -/
theorem agrees_dropTrailingCopy (typed : ∀ i ∈ body, i.Typed d.workspace.table) :
    Agrees d.IsUser d (d.dropTrailingCopy source target) := by
  have run := tracks_dropTrailingCopy split copies stands
  refine ⟨(renamedBy_drop copies).kind?, fun m kinded => ?_, fun m kinded done => ?_,
    fun m kinded done h user => ?_⟩
  · rw [advance_eq_nil_iff split copies stands typed kinded, (run m).1, List.map_eq_nil_iff]
  · rw [advance_eq_nil_iff split copies stands typed kinded] at done
    obtain ⟨x, -, ran⟩ := advance_of_body split copies stands typed kinded done
    rw [ran]
    exact (run m).2.generator
  · rw [advance_eq_nil_iff split copies stands typed kinded] at done
    obtain ⟨x, hx, ran⟩ := advance_of_body split copies stands typed kinded done
    have value := (run m).2.value
    rw [done] at value
    rw [ran, Machine.get?_apply]
    by_cases same : h = target
    · subst same
      have moved := value source (.inl rfl)
      rw [Handle.replace, if_pos rfl] at moved
      rw [if_pos rfl]
      exact moved.trans hx
    · have other : h ≠ source := by
        rintro rfl
        exact user stands.temporary
      have unmoved := value h (.inr ⟨user, same⟩)
      rw [Handle.replace, if_neg other] at unmoved
      rw [if_neg same]
      exact unmoved

end Drop
end Draft

namespace Drafting

theorem of_dropTrailingCopy {d d' : Draft} {b : Bool} (ran : Yields dropTrailingCopy d b d') :
    (∃ body last source target, d.program.EndsInCopy d.workspace.table body last source target ∧
      d' = d.dropTrailingCopy source target) ∨
    d' = d ∧ (d.program.trailingCopy? d.workspace.table).toOption = some none := by
  obtain ⟨found, d₁, asked, ran⟩ := ran.of_bind
  rw [Yields, run_query] at asked
  obtain ⟨answer, rfl⟩ := Prod.mk.inj asked
  cases found with
  | none =>
      cases ran
      exact .inr ⟨rfl, Outcome.toOption_eq_some.mpr answer⟩
  | some pair =>
      cases ran
      obtain ⟨body, last, ends⟩ :=
        Program.endsInCopy_of_trailingCopy? (Outcome.toOption_eq_some.mpr answer)
      exact .inl ⟨body, last, pair.1, pair.2, ends, rfl⟩

/-- The final copy is dropped when that is possible. -/
theorem yields_dropTrailingCopy {d : Draft}
    (searchable : d.program.Searchable d.workspace.table) :
    (∃ body last source target,
      d.program.EndsInCopy d.workspace.table body last source target ∧
      Yields dropTrailingCopy d true (d.dropTrailingCopy source target)) ∨
    (∀ body last source target,
      ¬d.program.EndsInCopy d.workspace.table body last source target) ∧
      Yields dropTrailingCopy d false d := by
  obtain ⟨found, hf⟩ : ∃ found,
      (d.program.trailingCopy? d.workspace.table).toOption = some found :=
    ⟨_, Program.toOption_trailingCopy? searchable⟩
  cases found with
  | none =>
      refine .inr ⟨fun body last source target ends => ?_, (yields_query hf).bind rfl⟩
      rw [ends.toOption_trailingCopy? searchable] at hf
      cases hf
  | some pair =>
      obtain ⟨body, last, ends⟩ := Program.endsInCopy_of_trailingCopy? hf
      exact .inl ⟨body, last, pair.1, pair.2, ends, (yields_query hf).bind rfl⟩

end Drafting
end MatrixCode
