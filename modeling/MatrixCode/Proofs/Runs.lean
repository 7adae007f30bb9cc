import MatrixCode.Optimizer.Folding
import MatrixCode.Proofs.Atomicity

/-!
Runs. A run carries out one instruction after the other until one fails, so it is
described by the machine that it ends with and by what it leaves undone; it
succeeds when it leaves nothing. Only the targets of what was done have changed,
and the values in the store keep to the kinds of their variables.
-/

namespace MatrixCode
namespace Instruction

/-- What the instructions write. -/
def outputs (is : List Instruction) : List Handle := is.filterMap output

@[simp] theorem outputs_nil : outputs [] = [] := rfl

@[simp] theorem outputs_append (is js : List Instruction) :
    outputs (is ++ js) = outputs is ++ outputs js := by
  simp [outputs]

@[simp] theorem outputs_cons (i : Instruction) (is : List Instruction) :
    outputs (i :: is) = i.output.toList ++ outputs is := by
  cases ho : i.output <;> simp [outputs, ho]

theorem mem_outputs {is : List Instruction} {w : Handle} :
    w ∈ outputs is ↔ ∃ i ∈ is, i.output = some w := by
  simp [outputs]

/-- The target is of the kind that the operation gives where the operation alone
decides on it. -/
structure Typed (t : Table) (i : Instruction) : Prop where
  matrix : ∀ w, i.output = some w → i.isPartial ∨ i.primitive = .assemble →
    t.kind? w = some .matrix
  integer : ∀ w, i.output = some w → Folding.isClosed i → t.kind? w = some .integer

theorem Typed.congr {i : Instruction} {t t' : Table} (typed : i.Typed t)
    (same : ∀ h, t'.kind? h = t.kind? h) : i.Typed t' where
  matrix w hw h := (same w).trans (typed.matrix w hw h)
  integer w hw h := (same w).trans (typed.integer w hw h)

/-- An instruction writes a value of the kind of its target. -/
theorem Typed.kind_of_evaluate {i : Instruction} {t : Table} {m : Machine} {e : Effect}
    (typed : i.Typed t) (he : (i.evaluate t m).toOption = some e) :
    t.kind? e.target = some e.value.kind := by
  have hw := output_of_evaluate he
  rw [toOption_evaluate, hw, Option.bind_some] at he
  obtain ⟨r, hr, he⟩ := Option.map_eq_some_iff.mp he
  have hv : e.value = r.1 := by rw [← he]
  rw [hv]
  simp only [result] at hr
  split at hr
  · next hp =>
      obtain ⟨x, -, rfl⟩ := Option.map_eq_some_iff.mp hr
      exact typed.matrix e.target hw (.inl hp)
  · split at hr
    · next ha =>
        obtain ⟨x, -, rfl⟩ := Option.map_eq_some_iff.mp hr
        exact typed.matrix e.target hw (.inr ha)
    · obtain ⟨kind, hk, hr⟩ := Option.bind_eq_some_iff.mp hr
      rw [hk]
      cases kind with
      | integer | double | matrix =>
          obtain ⟨x, -, rfl⟩ := Option.map_eq_some_iff.mp hr
          rfl
      | sequence => cases hr

end Instruction

namespace Store

/-- Every value is of the kind of its variable. -/
def WellKinded (t : Table) (s : Store) : Prop :=
  ∀ h x, s.get? h = some x → t.kind? h = some x.kind

theorem wellKinded_empty (t : Table) : empty.WellKinded t := by
  intro h x hx
  cases hx

theorem WellKinded.set {t : Table} {s : Store} (hs : s.WellKinded t) {h : Handle} {x : Value}
    (hx : t.kind? h = some x.kind) : (s.set h x).WellKinded t := by
  intro k y hy
  rw [get?_set] at hy
  split at hy
  · next hk =>
      obtain rfl : x = y := by simpa using hy
      rw [hk, hx]
  · exact hs k y hy

theorem WellKinded.matrix?_eq_none {t : Table} {s : Store} (hs : s.WellKinded t) {h : Handle}
    (hk : t.kind? h ≠ some .matrix) : s.matrix? h = none := by
  simp only [matrix?]
  cases hx : s.get? h with
  | none => rfl
  | some x =>
      have kind := hs h x hx
      cases x with
      | integer _ | double _ => rfl
      | matrix _ => exact absurd kind hk

end Store

namespace Machine

/-- Carries out instructions until one fails: the machine then, and what is left to do. -/
def advance (t : Table) : List Instruction → Machine → Machine × List Instruction
  | [], m => (m, [])
  | i :: is, m =>
    match (i.evaluate t m).toOption with
    | some e => advance t is (m.apply e)
    | none => (m, i :: is)

theorem run_cons (t : Table) (i : Instruction) (is : List Instruction) (o : Option Handle)
    (m : Machine) :
    (run t ⟨i :: is, o⟩).run.run m =
      match i.evaluate t m with
      | .ok e => (run t ⟨is, o⟩).run.run (m.apply e)
      | .error x => (.error x, m) := by
  simp only [run, List.forM_eq_forM, List.forM_cons, ExceptT.run_bind, StateT.run_bind]
  rw [run_execute]
  cases i.evaluate t m <;> rfl

/-- A run ends with the machine that instructions were carried out on, and it fails
when something is left to do. -/
theorem run_eq_advance (t : Table) (p : Program) (m : Machine) :
    ∃ r, (run t p).run.run m = (r, (advance t p.instructions m).1) ∧
      (r.toOption = none ↔ (advance t p.instructions m).2 ≠ []) := by
  obtain ⟨is, o⟩ := p
  induction is generalizing m with
  | nil => exact ⟨.ok (), rfl, by simp [advance]⟩
  | cons i is ih =>
      rw [run_cons]
      simp only [advance]
      cases i.evaluate t m with
      | ok e => exact ih (m.apply e)
      | error x => exact ⟨.error x, rfl, by simp⟩

@[simp] theorem get?_apply (m : Machine) (e : Effect) (h : Handle) :
    (m.apply e).store.get? h = if h = e.target then some e.value else m.store.get? h :=
  Store.get?_set m.store e.target h e.value

@[simp] theorem apply_generator (m : Machine) (e : Effect) :
    (m.apply e).generator = e.generator := rfl

theorem advance_append {t : Table} {is js : List Instruction} {m m₁ : Machine}
    (h : advance t is m = (m₁, [])) : advance t (is ++ js) m = advance t js m₁ := by
  induction is generalizing m with
  | nil => cases h; rfl
  | cons i is ih =>
      simp only [advance] at h
      simp only [List.cons_append, advance]
      cases he : (i.evaluate t m).toOption with
      | none => simp [he] at h
      | some e => exact ih (by simpa [he] using h)

theorem advance_append_of_ne {t : Table} {is : List Instruction} (js : List Instruction) {m : Machine}
    (h : (advance t is m).2 ≠ []) :
    advance t (is ++ js) m = ((advance t is m).1, (advance t is m).2 ++ js) := by
  induction is generalizing m with
  | nil => exact absurd rfl h
  | cons i is ih =>
      simp only [List.cons_append, advance] at h ⊢
      cases he : (i.evaluate t m).toOption with
      | none => rfl
      | some e => exact ih (by simpa [he] using h)

/-- A run does the first instructions and leaves the others. -/
theorem advance_done (t : Table) (is : List Instruction) (m : Machine) :
    ∃ done, is = done ++ (advance t is m).2 ∧ advance t done m = ((advance t is m).1, []) := by
  induction is generalizing m with
  | nil => exact ⟨[], rfl, rfl⟩
  | cons i is ih =>
      simp only [advance]
      cases he : (i.evaluate t m).toOption with
      | none => exact ⟨[], rfl, rfl⟩
      | some e =>
          obtain ⟨done, split, run⟩ := ih (m.apply e)
          exact ⟨i :: done, congrArg (i :: ·) split, by simpa only [advance, he] using run⟩

/-- What is not written is not changed. -/
theorem get?_advance_of_notMem {t : Table} {is : List Instruction} {h : Handle} (m : Machine)
    (hh : h ∉ Instruction.outputs is) : (advance t is m).1.store.get? h = m.store.get? h := by
  induction is generalizing m with
  | nil => rfl
  | cons i is ih =>
      simp only [Instruction.outputs_cons, List.mem_append, not_or] at hh
      simp only [advance]
      cases he : (i.evaluate t m).toOption with
      | none => rfl
      | some e =>
          have other : h ≠ e.target := by
            rintro rfl
            exact hh.1 (by simp [Instruction.output_of_evaluate he])
          simp only [ih (m.apply e) hh.2, get?_apply, if_neg other]

/-- What is written has a value after a run. -/
theorem isSome_advance_of_mem {t : Table} {is : List Instruction} {h : Handle} {m : Machine}
    (done : (advance t is m).2 = []) (hh : h ∈ Instruction.outputs is) :
    ((advance t is m).1.store.get? h).isSome := by
  induction is generalizing m with
  | nil => cases hh
  | cons i is ih =>
      simp only [advance] at done ⊢
      cases he : (i.evaluate t m).toOption with
      | none => simp [he] at done
      | some e =>
          simp only [he] at done
          by_cases later : h ∈ Instruction.outputs is
          · exact ih done later
          · have written : i.output = some h := by simpa [later] using hh
            have target : h = e.target := by
              simpa [written] using Instruction.output_of_evaluate he
            rw [get?_advance_of_notMem _ later, get?_apply, if_pos target]
            rfl

theorem wellKinded_advance {t : Table} {is : List Instruction} {m : Machine}
    (typed : ∀ i ∈ is, i.Typed t) (hm : m.store.WellKinded t) :
    (advance t is m).1.store.WellKinded t := by
  induction is generalizing m with
  | nil => exact hm
  | cons i is ih =>
      simp only [advance]
      cases he : (i.evaluate t m).toOption with
      | none => exact hm
      | some e =>
          have kind := (typed i List.mem_cons_self).kind_of_evaluate he
          exact ih (fun j hj => typed j (List.mem_cons_of_mem i hj)) (hm.set kind)

end Machine
end MatrixCode
