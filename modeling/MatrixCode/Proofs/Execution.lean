import MatrixCode.Context.Basic
import MatrixCode.Proofs.Optimization

/-!
Execution of an equation on the values of its context. The temporaries of the program get
storage, the program runs, and the values of temporaries are forgotten. A sound draft does not
look at what temporaries held before, so execution gives what a run on the values gives; with
the optimizer it gives the same.
-/

namespace MatrixCode

namespace Machine

/-- Storage for some variables: nothing else changes, and values keep to their kinds. -/
structure Prepares (t : Table) (hs : List Handle) (m m' : Machine) : Prop where
  generator : m'.generator = m.generator
  value : ∀ k, k ∉ hs → m'.store.get? k = m.store.get? k
  kinded : m.store.WellKinded t → m'.store.WellKinded t

theorem Prepares.refl (t : Table) (hs : List Handle) (m : Machine) : Prepares t hs m m :=
  ⟨rfl, fun _ _ => rfl, id⟩

theorem prepares_declare {t : Table} {h : Handle} (found : (t.get? h).isSome) (m : Machine) :
    ∃ m', Yields (declare t h) m () m' ∧ Prepares t [h] m m' := by
  obtain ⟨v, hv⟩ := Option.isSome_iff_exists.mp found
  have kind : t.fetchKind h = .ok v.kind := by simp [Table.fetchKind, Table.fetch, hv]
  simp only [Yields, declare, run_get_bind, kind]
  cases m.store.contains h with
  | true => exact ⟨m, rfl, .refl t [h] m⟩
  | false =>
      cases hi : Value.initial? v.kind with
      | none => exact ⟨m, rfl, .refl t [h] m⟩
      | some x =>
          refine ⟨{ m with store := m.store.set h x }, rfl, rfl, fun k hk => ?_, fun kinded => ?_⟩
          · simp only [List.mem_singleton] at hk
            simp [hk]
          · refine kinded.set ?_
            rw [Table.kind?, hv, Option.map_some, Option.some.injEq]
            cases hk : v.kind <;> rw [hk] at hi <;> cases hi <;> rfl

theorem prepares_forM {t : Table} {hs : List Handle} (found : ∀ h ∈ hs, (t.get? h).isSome)
    (m : Machine) : ∃ m', Yields (hs.forM (declare t)) m () m' ∧ Prepares t hs m m' := by
  induction hs generalizing m with
  | nil => exact ⟨m, rfl, .refl t [] m⟩
  | cons h hs ih =>
      obtain ⟨head, tail⟩ := List.forall_mem_cons.mp found
      obtain ⟨m₁, first, prepared⟩ := prepares_declare head m
      obtain ⟨m', rest, more⟩ := ih tail m₁
      refine ⟨m', first.bind rest, ?_, fun k hk => ?_, fun kinded => ?_⟩
      · rw [more.generator, prepared.generator]
      · simp only [List.mem_cons, not_or] at hk
        rw [more.value k hk.2, prepared.value k (by simpa using hk.1)]
      · exact more.kinded (prepared.kinded kinded)

end Machine

/-- A sound draft does not look at what temporaries hold before it runs. -/
theorem Draft.Sound.advance_congr {d : Draft} (sound : d.Sound) {m m' : Machine}
    (generator : m'.generator = m.generator)
    (value : ∀ h, d.IsUser h → m'.store.get? h = m.store.get? h) :
    (d.advance m').2 = (d.advance m).2 ∧
      (d.advance m').1.generator = (d.advance m).1.generator ∧
      ((d.advance m).2 = [] → ∀ h, d.IsUser h →
        (d.advance m').1.store.get? h = (d.advance m).1.store.get? h) := by
  have renames := (RenamedBy.refl d).renames ⟨fun _ => rfl, fun _ _ => rfl⟩ (List.Subset.refl _)
  have clear : Clear id d.workspace.table d.IsUser d.program.instructions :=
    fun _ _ _ _ _ _ => ⟨fun _ _ same => same, fun _ _ _ same => same⟩
  have start : Tracks id (Live d.workspace.table d.IsUser d.program.instructions) m m' :=
    ⟨fun h live => value h fun temporary => sound.opened h temporary live, generator⟩
  obtain ⟨left, tracks⟩ := Tracks.advance renames clear start
  rw [show Instruction.rename id = id from funext Instruction.rename_id, List.map_id,
    List.map_id] at left
  rw [show Instruction.rename id = id from funext Instruction.rename_id, List.map_id] at tracks
  refine ⟨left, tracks.generator, fun done h user => tracks.value h ?_⟩
  rw [show (Machine.advance _ _ m).2 = [] from done]
  exact user

theorem Store.get?_foldl_erase (s : Store) {hs : List Handle} {k : Handle} (hk : k ∉ hs) :
    (hs.foldl Store.erase s).get? k = s.get? k := by
  induction hs generalizing s with
  | nil => rfl
  | cons h hs ih =>
      simp only [List.mem_cons, not_or] at hk
      rw [List.foldl_cons, ih _ hk.2, Store.get?_erase, if_neg hk.1]

namespace Equation

/-- The program of the equation and its variables. -/
def draft (e : Equation) : Draft := ⟨e.context.workspace, e.program⟩

/-- What execution leaves of a run on the machine `m`: its generator, and the values in the
variables of the user. -/
structure Executed (e : Equation) (m : Machine) (e' : Equation) : Prop where
  generator : e'.context.machine.generator = (e.draft.advance m).1.generator
  value : ∀ h, e.draft.IsUser h → e'.context.store.get? h = (e.draft.advance m).1.store.get? h

/-- The equation with the values on a machine, but for those of some variables. -/
def leaving (e : Equation) (hs : List Handle) (m : Machine) : Equation :=
  { e with context := { e.context with machine := ⟨hs.foldl Store.erase m.store, m.generator⟩ } }

/-- The equation with another program and other variables. -/
def withDraft (e : Equation) (d : Draft) : Equation :=
  ⟨{ e.context with workspace := d.workspace }, d.program⟩

end Equation

namespace Compilation

/-- Runs the program as it is. -/
def carryOut : Compilation Unit := do
  let e ← get
  let table := e.context.table
  let temporaries ← e.program.temporaries table
  executing (temporaries.forM (Machine.declare table))
  try
    executing (Machine.run table e.program)
  catch failure =>
    forget temporaries
    throw failure
  forget temporaries

theorem execute_eq (enabled : Bool) : execute enabled = (do
    let report ← optimizeWhen enabled .standard Machine.fold
    carryOut
    return report) := by
  simp only [execute, carryOut, bind_assoc]

theorem run_executing {α : Type} (x : Execution α) (e : Equation) :
    (executing x).run.run e = ((x.run.run e.context.machine).1,
      { e with context := { e.context with machine := (x.run.run e.context.machine).2 } }) := rfl

theorem yields_executing {α : Type} {x : Execution α} {e : Equation} {a : α} {m : Machine}
    (ran : Yields x e.context.machine a m) :
    Yields (executing x) e a { e with context := { e.context with machine := m } } := by
  rw [Yields, run_executing, ran]

theorem fails_executing {α : Type} {x : Execution α} {e : Equation} {m : Machine}
    (failed : Fails x e.context.machine m) :
    Fails (executing x) e { e with context := { e.context with machine := m } } := by
  obtain ⟨failure, failed⟩ := failed
  exact ⟨failure, by rw [run_executing, failed]⟩

theorem run_drafting {α : Type} (x : Drafting α) (e : Equation) :
    (drafting x).run.run e = ((x.run.run e.draft).1, e.withDraft (x.run.run e.draft).2) := rfl

theorem yields_optimizeWhen {e : Equation} {policy : Policy} {folder : Folder} {report : Report}
    {d : Draft} (ran : Yields (Drafting.optimize policy folder) e.draft report d) :
    Yields (optimizeWhen true policy folder) e (some report) (e.withDraft d) := by
  have drafted : Yields (drafting (.optimize policy folder)) e report (e.withDraft d) := by
    rw [Yields, run_drafting, ran]
  exact drafted.bind rfl

theorem fails_optimizeWhen {e : Equation} {policy : Policy} {folder : Folder} {d : Draft}
    (failed : Fails (Drafting.optimize policy folder) e.draft d) :
    Fails (optimizeWhen true policy folder) e (e.withDraft d) := by
  obtain ⟨failure, failed⟩ := failed
  have drafted : Fails (drafting (.optimize policy folder)) e (e.withDraft d) :=
    ⟨failure, by rw [run_drafting, failed]⟩
  exact drafted.bind

theorem of_yields_optimizeWhen {e e' : Equation} {policy : Policy} {folder : Folder}
    {r : Option Report} (ran : Yields (optimizeWhen true policy folder) e r e') :
    ∃ report d, Yields (Drafting.optimize policy folder) e.draft report d ∧ e' = e.withDraft d := by
  obtain ⟨report, e₁, drafted, returned⟩ := ran.of_bind
  cases returned
  rw [Yields, run_drafting] at drafted
  obtain ⟨answer, rfl⟩ := Prod.mk.inj drafted
  exact ⟨report, _, Prod.ext answer rfl, rfl⟩

theorem of_fails_optimizeWhen {e e' : Equation} {policy : Policy} {folder : Folder}
    (failed : Fails (optimizeWhen true policy folder) e e') :
    ∃ d, Fails (Drafting.optimize policy folder) e.draft d ∧ e' = e.withDraft d := by
  obtain ⟨failure, drafted⟩ | ⟨report, e₁, -, failure, returned⟩ := failed.of_bind
  · rw [run_drafting] at drafted
    obtain ⟨answer, rfl⟩ := Prod.mk.inj drafted
    exact ⟨_, ⟨failure, Prod.ext answer rfl⟩, rfl⟩
  · cases returned

theorem fails_carryOut {e : Equation}
    (uncovered : ¬∀ i ∈ e.program.instructions, i.Covered e.context.table) : Fails carryOut e e := by
  have got : Yields (get : Compilation Equation) e e e := rfl
  have failed : (e.program.temporaries e.context.table).toOption = none := by
    cases h : (e.program.temporaries e.context.table).toOption with
    | none => rfl
    | some hs => exact absurd (Program.temporaries_spec h).1 uncovered
  exact got.bind_fails (fails_outcome failed e).bind

/-- The temporaries get storage, the program runs, and the values of temporaries are forgotten. -/
theorem carryOut_run {e : Equation} {hs : List Handle}
    (listed : (e.program.temporaries e.context.table).toOption = some hs) :
    ∃ m, Machine.Prepares e.context.table hs e.context.machine m ∧
      if (e.draft.advance m).2 = [] then Yields carryOut e () (e.leaving hs (e.draft.advance m).1)
      else Fails carryOut e (e.leaving hs (e.draft.advance m).1) := by
  have found : ∀ h ∈ hs, (e.context.table.get? h).isSome := by
    intro h hh
    obtain ⟨-, v, hv, -⟩ := ((Program.temporaries_spec listed).2 h).mp hh
    simp [hv]
  obtain ⟨m, prepared, prepares⟩ := Machine.prepares_forM found e.context.machine
  have got : Yields (get : Compilation Equation) e e e := rfl
  have ready := yields_executing prepared
  obtain ⟨r, ran, outcome⟩ := Machine.run_eq_advance e.context.table e.program m
  let m' := (e.draft.advance m).1
  let after : Equation := { e with context := { e.context with machine := m' } }
  have forgotten : Yields (forget hs) after () (e.leaving hs m') := rfl
  refine ⟨m, prepares, ?_⟩
  split
  · next done =>
      have succeeded : Yields (Machine.run e.context.table e.program) m () m' := by
        cases r with
        | ok _ => exact ran
        | error failure => exact absurd done (outcome.mp rfl)
      exact got.bind ((yields_outcome listed e).bind (ready.bind
        ((yields_executing succeeded).tryCatch.bind forgotten)))
  · next stopped =>
      have failed : Fails (Machine.run e.context.table e.program) m m' := by
        cases r with
        | ok _ => cases outcome.mpr stopped
        | error failure => exact ⟨failure, ran⟩
      refine got.bind_fails ((yields_outcome listed e).bind_fails (ready.bind_fails
        (Fails.bind ((fails_executing failed).tryCatch fun failure => ?_))))
      exact forgotten.bind_fails ⟨failure, rfl⟩

theorem carryOut_spec {e : Equation}
    (covered : ∀ i ∈ e.program.instructions, i.Covered e.context.table) :
    ∃ m e', m.generator = e.context.machine.generator ∧
      (∀ h, e.draft.IsUser h → m.store.get? h = e.context.store.get? h) ∧
      (e.context.store.WellKinded e.context.table → m.store.WellKinded e.context.table) ∧
      e.Executed m e' ∧
      if (e.draft.advance m).2 = [] then Yields carryOut e () e' else Fails carryOut e e' := by
  obtain ⟨hs, listed⟩ := Option.isSome_iff_exists.mp (Program.isSome_temporaries covered)
  obtain ⟨m, prepares, outcome⟩ := carryOut_run listed
  have apart {h : Handle} (user : e.draft.IsUser h) : h ∉ hs :=
    fun hh => user (((Program.temporaries_spec listed).2 h).mp hh).2
  exact ⟨m, e.leaving hs (e.draft.advance m).1, prepares.generator,
    fun h user => prepares.value h (apart user), prepares.kinded,
    ⟨rfl, fun h user => Store.get?_foldl_erase _ (apart user)⟩, outcome⟩

/-- Drafts that agree are carried out alike. -/
theorem carryOut_agrees {e : Equation} {d : Draft} (sound : e.draft.Sound) (sound' : d.Sound)
    (agrees : Draft.Agrees e.draft.IsUser e.draft d) (users : ∀ h, e.draft.IsUser h → d.IsUser h)
    (kinded : e.context.store.WellKinded e.context.table) :
    (∃ e₁ e₂, Yields carryOut e () e₁ ∧ Yields carryOut (e.withDraft d) () e₂ ∧
      e₂.context.machine.generator = e₁.context.machine.generator ∧
      ∀ h, e.draft.IsUser h → e₂.context.store.get? h = e₁.context.store.get? h) ∨
    ∃ e₁ e₂, Fails carryOut e e₁ ∧ Fails carryOut (e.withDraft d) e₂ := by
  obtain ⟨m₁, e₁, generator₁, value₁, -, executed₁, outcome₁⟩ := carryOut_spec sound.covered
  have covered' : ∀ i ∈ (e.withDraft d).program.instructions,
      i.Covered (e.withDraft d).context.table := sound'.covered
  obtain ⟨m₂, e₂, generator₂, value₂, -, executed₂, outcome₂⟩ := carryOut_spec covered'
  -- both runs are compared with runs on the machine of the context
  obtain ⟨left₁, gen₁, val₁⟩ := sound.advance_congr generator₁ value₁
  obtain ⟨left₂, gen₂, val₂⟩ := sound'.advance_congr generator₂ value₂
  have done := agrees.done e.context.machine kinded
  rw [← left₁] at done
  change (d.advance e.context.machine).2 = [] ↔ _ at done
  rw [show ((e.withDraft d).draft.advance m₂).2 = (d.advance e.context.machine).2 from left₂]
    at outcome₂
  by_cases finished : (e.draft.advance m₁).2 = []
  · rw [if_pos finished] at outcome₁
    rw [if_pos (done.mpr finished)] at outcome₂
    have finished' : (e.draft.advance e.context.machine).2 = [] := left₁ ▸ finished
    refine .inl ⟨e₁, e₂, outcome₁, outcome₂, ?_, fun h user => ?_⟩
    · rw [executed₁.generator, executed₂.generator, gen₁]
      exact gen₂.trans (agrees.generator e.context.machine kinded finished')
    · rw [executed₁.value h user, executed₂.value h (users h user), val₁ finished' h user]
      exact (val₂ (done.mpr finished) h (users h user)).trans
        (agrees.value e.context.machine kinded finished' h user)
  · rw [if_neg finished] at outcome₁
    rw [if_neg (mt done.mp finished)] at outcome₂
    exact .inr ⟨e₁, e₂, outcome₁, outcome₂⟩

/-- Execution of an equation with the optimizer and without it: both succeed, with the same random
numbers left and the same values in the variables of the user, or both fail. -/
theorem execute_optimized {e : Equation} {body : List Instruction} {last : Instruction}
    {target : Handle} (single : e.draft.SingleEquation body last target)
    (steps : ∀ i ∈ e.program.instructions, ∀ k ∈ i.steps e.context.table, e.draft.IsUser k)
    (named : ∀ v, e.context.table.get? target = some v → v.isLiteral = false)
    (kinded : e.context.store.WellKinded e.context.table) :
    (∃ r r' e₁ e₂, Yields (execute false) e r e₁ ∧ Yields (execute true) e r' e₂ ∧
      e₂.context.machine.generator = e₁.context.machine.generator ∧
      ∀ h, e.draft.IsUser h → e₂.context.store.get? h = e₁.context.store.get? h) ∨
    ∃ e₁ e₂, Fails (execute false) e e₁ ∧ Fails (execute true) e e₂ := by
  rw [execute_eq, execute_eq]
  have plain : Yields (optimizeWhen false .standard Machine.fold) e none e := rfl
  by_cases covered : ∀ i ∈ e.draft.program.instructions, i.Covered e.draft.workspace.table
  case neg =>
    exact .inr ⟨_, _, plain.bind_fails (fails_carryOut covered).bind,
      (fails_optimizeWhen (Drafting.fails_optimize covered)).bind⟩
  have unliteral (a : Appearance) (ha : e.draft.workspace.table.appearance? target = some a) :
      a.isLiteral = false := by
    obtain ⟨v, hv, rfl⟩ := Option.map_eq_some_iff.mp ha
    exact named v hv
  rcases single.optimize covered steps unliteral .standard with
    ⟨report, d, ran, agrees, sound, -, -, users⟩ | ⟨⟨d, failed⟩, stopped⟩
  · have optimized := yields_optimizeWhen ran
    rcases carryOut_agrees (single.sound covered) sound agrees users kinded with
      ⟨e₁, e₂, first, second, same⟩ | ⟨e₁, e₂, first, second⟩
    · exact .inl ⟨none, some report, e₁, e₂, plain.bind (first.bind rfl),
        optimized.bind (second.bind rfl), same⟩
    · exact .inr ⟨e₁, e₂, plain.bind_fails first.bind, optimized.bind_fails second.bind⟩
  · obtain ⟨m, e₁, -, -, keeps, -, outcome⟩ := carryOut_spec covered
    rw [if_neg (stopped m (keeps kinded))] at outcome
    exact .inr ⟨e₁, _, plain.bind_fails outcome.bind, (fails_optimizeWhen failed).bind⟩

end Compilation

/-- The equation of a draft, with the values in a store. -/
def Equation.ofDraft (d : Draft) (store : Store) : Equation :=
  ⟨⟨d.workspace, ⟨store, .initial⟩, []⟩, d.program⟩

theorem Compilation.execute_optimized_doubleNegation :
    let e := Equation.ofDraft (.ofEquation .doubleNegation (.ofIntegers ["n", "x"]))
      (Store.empty.set ⟨2⟩ (.integer 7))
    ∃ r r' e₁ e₂, Yields (execute false) e r e₁ ∧ Yields (execute true) e r' e₂ ∧
      (e₁.context.store.get? ⟨3⟩).bind Value.integer? = some 7 ∧
      e₂.context.machine.generator = e₁.context.machine.generator ∧
      ∀ h, e.draft.IsUser h → e₂.context.store.get? h = e₁.context.store.get? h := by
  intro e
  obtain ⟨body, last, single⟩ := Draft.singleEquation_doubleNegation
  have assigned : ((execute false).run.run e).1.toOption.isSome ∧
      (((execute false).run.run e).2.context.store.get? ⟨3⟩).bind Value.integer? = some 7 := by
    decide +kernel
  have named : ∀ v ∈ e.context.table.get? ⟨3⟩, v.isLiteral = false := by decide +kernel
  obtain ⟨r, r', e₁, e₂, plain, optimized, same⟩ | ⟨e₁, -, failed, -⟩ :=
    execute_optimized (e := e) single (by decide +kernel) named
      ((Store.wellKinded_empty _).set (by decide +kernel))
  · rw [plain] at assigned
    exact ⟨r, r', e₁, e₂, plain, optimized, assigned.2, same⟩
  · obtain ⟨failure, failed⟩ := failed
    rw [failed] at assigned
    cases assigned.1

end MatrixCode
