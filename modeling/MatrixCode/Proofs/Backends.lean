import MatrixCode.Proofs.Emission
import MatrixCode.Proofs.Sessions

/-!
Construction and its two uses. What is built in a session, on variables that exist, can be written
out, and it can be run as far as the values allow: neither the machine nor the writer meets an
instruction that it does not know, also after any number of optimizations.
-/

namespace MatrixCode
namespace Session

/-- From the session on, the commands make ranges over variables that exist at the time. -/
def GroundedFrom (s : Session) : List Command → Prop
  | [] => True
  | command :: commands => command.Grounded s.context.table ∧ GroundedFrom (s.perform command) commands

instance decidableGroundedFrom :
    (s : Session) → (commands : List Command) → Decidable (s.GroundedFrom commands)
  | _, [] => isTrue trivial
  | s, command :: commands =>
    have := decidableGroundedFrom (s.perform command) commands
    inferInstanceAs (Decidable (_ ∧ _))

theorem grounded_initial : initial.context.table.Grounded := by
  have entries : ∀ v ∈ Table.initial.entries, v.range?.isNone := by decide +kernel
  intro h range found
  obtain ⟨v, hv, hr⟩ := Option.bind_eq_some_iff.mp found
  have none := entries v (Array.mem_of_getElem? hv)
  simp [hr] at none

theorem grounded_foldl {s : Session} (valid : s.Valid) (grounded : s.context.table.Grounded)
    {commands : List Command} (ranges : s.GroundedFrom commands) :
    (commands.foldl perform s).context.table.Grounded := by
  induction commands generalizing s with
  | nil => exact grounded
  | cons command commands ih =>
      have kept := valid.perform command
      exact ih kept.valid (kept.grounded ranges.1 grounded) ranges.2

/-- The programs of a session are ready to be run and written. -/
theorem ready_run {commands : List Command} (ranges : initial.GroundedFrom commands) {p : Program}
    (hp : p ∈ (run commands).programs) : Draft.Ready ⟨(run commands).context.workspace, p⟩ :=
  ⟨(valid_run commands).fits p hp, grounded_foldl valid_initial grounded_initial ranges⟩

/-- A program in the context of the session, on the values of a machine. -/
def equation (s : Session) (p : Program) (m : Machine) : Equation :=
  ⟨{ s.context with machine := m }, p⟩

/-- Every program of a session can be written out, whatever the options, and whatever values it is
run on, with or without optimization, it fails because of them only. -/
theorem backends_cover {commands : List Command} (ranges : initial.GroundedFrom commands)
    {p : Program} (hp : p ∈ (run commands).programs) (m : Machine) :
    (∀ options, ∃ code e',
      Yields (Compilation.generate options) ((run commands).equation p m) code e') ∧
    ∀ optimize failure,
      ((Compilation.execute optimize).run.run ((run commands).equation p m)).1 = .error failure →
        failure.IsRuntime := by
  have ready : ((run commands).equation p m).draft.Ready := ready_run ranges hp
  refine ⟨fun options => ?_, Compilation.operational_executed ready⟩
  obtain ⟨code, written⟩ := (Compilation.sure_generate ready options).exists_ok
  exact ⟨code, _, Prod.ext written rfl⟩

/-- The first two rows of a matrix are taken out, and assigned to it. -/
def trimming : List Command :=
  [.declare "a" .matrix, .sequence (.span ⟨0⟩ none ⟨1⟩), .sequence (.toEnd none none), .begin,
    .request 0 (.extract ⟨2⟩ [⟨3⟩, ⟨4⟩]), .assign 0 ⟨5⟩ ⟨2⟩, .optimize 0 .standard Machine.fold]

def trimmed : Program where
  instructions :=
    [⟨.extract, .bare, [⟨2⟩], some ⟨5⟩, some [⟨3⟩, ⟨4⟩], none, []⟩,
      ⟨.copy, .mm, [⟨5⟩], some ⟨2⟩, none, none, Form.likeLeft⟩]
  output := some ⟨2⟩

theorem backends_cover_trimming :
    initial.GroundedFrom trimming ∧ trimmed ∈ (run trimming).programs ∧
    (∀ options, ∃ code e',
      Yields (Compilation.generate options) ((run trimming).equation trimmed .initial) code e') ∧
    ∀ optimize failure,
      ((Compilation.execute optimize).run.run ((run trimming).equation trimmed .initial)).1 =
        .error failure → failure.IsRuntime := by
  have ranges : initial.GroundedFrom trimming := by decide +kernel
  have built : trimmed ∈ (run trimming).programs := by decide +kernel
  exact ⟨ranges, built, backends_cover ranges built .initial⟩

end Session
end MatrixCode
