import MatrixCode.Proofs.Execution
import MatrixCode.Proofs.Grounding

/-!
Consistent contexts. The names of the user are those of different variables, the books on
temporaries are in order, values are of the kinds of their variables, and no temporary has a value.
Whatever is done to an equation in such a context, also when it fails, leaves the context consistent
and the kinds of variables as they were.
-/

namespace MatrixCode

/-- Takes the temporaries of the program off the books. -/
def Compilation.release : Compilation Unit := do
  let e ← get
  let c ← e.context.releaseTemporaries e.program
  set { e with context := c }

/-- The parts of a context fit together. -/
structure Context.Consistent (c : Context) : Prop where
  names : (c.aliases.map Prod.fst).Nodup
  aliases : ∀ entry ∈ c.aliases, ∃ v, c.table.get? entry.2 = some v ∧ v.temporary = false ∧
    v.kind ≠ .sequence
  books : c.workspace.Balanced
  kinded : c.store.WellKinded c.table
  forgotten : ∀ h, c.table.IsTemporary h → c.store.get? h = none

/-- Variables keep their kinds, and what becomes a temporary is new. -/
structure Table.Evolves (t t' : Table) : Prop where
  kind : ∀ h kind, t.kind? h = some kind → t'.kind? h = some kind
  temporary : ∀ h, t'.IsTemporary h → t.IsTemporary h ∨ t.get? h = none

namespace Table.Evolves

variable {t t' t'' : Table}

theorem refl (t : Table) : t.Evolves t := ⟨fun _ _ => id, fun _ => .inl⟩

theorem get?_eq_none (e : t.Evolves t') {h : Handle} (missing : t'.get? h = none) :
    t.get? h = none := by
  cases hv : t.get? h with
  | none => rfl
  | some v =>
      have kind := e.kind h v.kind (by simp [kind?, hv])
      simp [kind?, missing] at kind

theorem trans (e : t.Evolves t') (e' : t'.Evolves t'') : t.Evolves t'' where
  kind h kind hk := e'.kind h kind (e.kind h kind hk)
  temporary h temporary := (e'.temporary h temporary).elim (e.temporary h)
    fun missing => .inr (e.get?_eq_none missing)

theorem of_extends (ext : t.Extends t') : t.Evolves t' where
  kind _ _ := ext.kind?
  temporary h := by
    rintro ⟨v, hv, temporary⟩
    cases hu : t.get? h with
    | none => exact .inr rfl
    | some u =>
        obtain rfl : u = v := by simpa [ext h u hu] using hv
        exact .inl ⟨u, hu, temporary⟩

end Table.Evolves

theorem Draft.Step.evolves {folder : Folder} {d d' : Draft} (step : Step folder d d') :
    d.workspace.table.Evolves d'.workspace.table where
  kind h kind hk := (step.kind? h).trans hk
  temporary h temporary := by
    refine .inl ?_
    cases step with
    | fold o e _ =>
        obtain ⟨v, hv, ht⟩ := temporary
        rw [Folding.table_fold, Table.get?_modify] at hv
        split at hv
        · obtain ⟨u, -, rfl⟩ := Option.map_eq_some_iff.mp hv
          cases ht
        · exact ⟨v, hv, ht⟩
    | restrict p kept => exact temporary
    | replace hs ht => exact (d.isTemporary_replace _ _ h).mp temporary

/-- A table that evolves, and whose ranges stay within it. -/
structure Table.Develops (t t' : Table) : Prop extends t.Evolves t' where
  grounded : t.Grounded → t'.Grounded

namespace Table.Develops

variable {t t' t'' : Table}

theorem refl (t : Table) : t.Develops t := ⟨.refl t, id⟩

theorem trans (d : t.Develops t') (d' : t'.Develops t'') : t.Develops t'' :=
  ⟨d.toEvolves.trans d'.toEvolves, d'.grounded ∘ d.grounded⟩

end Table.Develops

theorem Draft.Step.develops {folder : Folder} {d d' : Draft} (step : Step folder d d') :
    d.workspace.table.Develops d'.workspace.table :=
  ⟨step.evolves, step.grounded⟩

namespace Context.Consistent

variable {c : Context}

/-- Other variables, with the same values. -/
theorem evolve (consistent : c.Consistent) {w : Workspace} (books : w.Balanced)
    (evolves : c.table.Evolves w.table) : Consistent { c with workspace := w } where
  names := consistent.names
  aliases entry he := by
    obtain ⟨v, hv, user, plain⟩ := consistent.aliases entry he
    have kind := evolves.kind entry.2 v.kind (by simp [Table.kind?, hv])
    obtain ⟨u, hu, same⟩ := Option.map_eq_some_iff.mp kind
    refine ⟨u, hu, ?_, same ▸ plain⟩
    by_contra temporary
    obtain ⟨v', hv', temporary'⟩ | missing := evolves.temporary entry.2 ⟨u, hu, by simpa using temporary⟩
    · rw [hv] at hv'
      cases hv'
      simp [user] at temporary'
    · simp [hv] at missing
  books := books
  kinded h x hx := evolves.kind h x.kind (consistent.kinded h x hx)
  forgotten h temporary := by
    obtain before | missing := evolves.temporary h temporary
    · exact consistent.forgotten h before
    · cases hx : c.store.get? h with
      | none => exact hx
      | some x =>
          have kind := consistent.kinded h x hx
          simp [Table.kind?, missing] at kind

end Context.Consistent

namespace Equation

/-- The context is consistent, and the instructions fit their operands. -/
structure Valid (e : Equation) : Prop where
  consistent : e.context.Consistent
  fits : e.draft.Fits

/-- What work on a valid equation leaves: a valid one, in a table that has developed. -/
def Keeps (e e' : Equation) : Prop :=
  e.Valid → e'.Valid ∧ e.context.table.Develops e'.context.table

theorem keeps_of_chain {e e' : Equation} (chain : Relation.ReflTransGen Keeps e e') : e.Keeps e' := by
  intro valid
  induction chain with
  | refl => exact ⟨valid, .refl _⟩
  | tail _ step ih =>
      obtain ⟨after, develops⟩ := step ih.1
      exact ⟨after, ih.2.trans develops⟩

theorem Valid.withDraft {e : Equation} (valid : e.Valid) {d : Draft} (books : d.workspace.Balanced)
    (fits : d.Fits) (develops : e.context.table.Develops d.workspace.table) :
    (e.withDraft d).Valid ∧ e.context.table.Develops (e.withDraft d).context.table :=
  ⟨⟨valid.consistent.evolve books develops.toEvolves, fits⟩, develops⟩

end Equation

namespace Draft

/-- What a construction in a draft leaves, with one more instruction when it succeeds. -/
inductive Extended (d : Draft) : Draft → Prop where
  | failed {w : Workspace} (made : d.workspace.Made w) : Extended d { d with workspace := w }
  | pushed {w : Workspace} (made : d.workspace.Made w) {i : Instruction} (fits : i.Fits w.table)
      (o : Option Handle) : Extended d ⟨w, ⟨d.program.instructions ++ [i], o⟩⟩

end Draft

namespace Drafting

/-- A request, and what follows it: the instruction is pushed, or nothing is done. -/
theorem extended_request {α : Type} (r : Request) {k : Instruction → Drafting α}
    (pushes : ∀ i d, ((k i).run.run d).2 = d ∨
      ∃ o, ((k i).run.run d).2 = ⟨d.workspace, ⟨d.program.instructions ++ [i], o⟩⟩) (d : Draft) :
    d.Extended ((construct r.perform >>= k).run.run d).2 := by
  have made := r.made_perform d.workspace
  have constructed : (construct r.perform).run.run d = ((r.perform.run.run d.workspace).1,
      { d with workspace := (r.perform.run.run d.workspace).2 }) := rfl
  rw [ExceptT.run_bind, StateT.run_bind, constructed]
  cases hr : r.perform.run.run d.workspace with
  | mk result w =>
      rw [hr] at made
      cases result with
      | error e => exact .failed made
      | ok i =>
          change d.Extended ((k i).run.run { d with workspace := w }).2
          obtain same | ⟨o, pushed⟩ := pushes i { d with workspace := w }
          · rw [same]
            exact .failed made
          · rw [pushed]
            exact .pushed made (Request.fits_of_perform hr) o

theorem extended_apply (r : Request) (d : Draft) : d.Extended ((apply r.perform).run.run d).2 := by
  refine extended_request r (fun i d => ?_) d
  cases i.output with
  | some o => exact .inr ⟨d.program.output, rfl⟩
  | none => exact .inl rfl

theorem extended_assign (source target : Handle) (d : Draft) :
    d.Extended ((assign source target).run.run d).2 :=
  extended_request (.copy source target) (fun _ _ => .inr ⟨some target, rfl⟩) d

theorem extended_assignRange (source target : Handle) (range : List Handle) (d : Draft) :
    d.Extended ((assignRange source target range).run.run d).2 :=
  extended_request (.copyRange source target range) (fun _ _ => .inr ⟨some target, rfl⟩) d

end Drafting

namespace Draft

variable {d d' : Draft}

theorem Extended.develops (extended : d.Extended d') :
    d.workspace.table.Develops d'.workspace.table := by
  cases extended with
  | failed made | pushed made fits o => exact ⟨.of_extends made.extends, made.grounded⟩

theorem Extended.balanced (extended : d.Extended d') (b : d.workspace.Balanced) :
    d'.workspace.Balanced := by
  cases extended with
  | failed made | pushed made fits o => exact made.balanced b

theorem Extended.fits (extended : d.Extended d') (fits : d.Fits) : d'.Fits := by
  cases extended with
  | failed made => exact fun i hi => (fits i hi).mono fun _ _ => made.extends.kind?
  | pushed made new o =>
      intro j hj
      obtain old | last := List.mem_append.mp hj
      · exact (fits j old).mono fun _ _ => made.extends.kind?
      · obtain rfl := List.mem_singleton.mp last
        exact new

end Draft

namespace Store

theorem get?_foldl_erase_of_mem (s : Store) {hs : List Handle} {k : Handle} (hk : k ∈ hs) :
    (hs.foldl Store.erase s).get? k = none := by
  induction hs generalizing s with
  | nil => cases hk
  | cons h hs ih =>
      rw [List.foldl_cons]
      by_cases later : k ∈ hs
      · exact ih _ later
      · rw [get?_foldl_erase _ later, get?_erase, if_pos (by simpa [later] using hk)]

theorem WellKinded.foldl_erase {t : Table} {s : Store} (kinded : s.WellKinded t) (hs : List Handle) :
    (hs.foldl Store.erase s).WellKinded t := by
  intro h x hx
  by_cases gone : h ∈ hs
  · rw [get?_foldl_erase_of_mem s gone] at hx
    cases hx
  · exact kinded h x (by rwa [get?_foldl_erase s gone] at hx)

end Store

namespace Compilation

open Equation (Keeps)

theorem stepsBy_extending {α : Type} {x : Drafting α} (extended : ∀ d : Draft, d.Extended (x.run.run d).2) :
    StepsBy Keeps (drafting x) := by
  intro e
  refine .single fun valid => ?_
  rw [run_drafting]
  have after := extended e.draft
  exact valid.withDraft (after.balanced valid.consistent.books) (after.fits valid.fits) after.develops

theorem stepsBy_optimize (policy : Policy) (folder : Folder) :
    StepsBy Keeps (drafting (.optimize policy folder)) := by
  intro e
  rw [run_drafting]
  have chain := Drafting.stepsBy_optimize policy folder e.draft
  refine .single fun valid => ?_
  generalize (StateT.run (ExceptT.run (Drafting.optimize policy folder)) e.draft).2 = d at chain
  suffices kept : d.workspace.Balanced ∧ d.Fits ∧ e.context.table.Develops d.workspace.table from
    valid.withDraft kept.1 kept.2.1 kept.2.2
  induction chain with
  | refl => exact ⟨valid.consistent.books, valid.fits, .refl _⟩
  | tail _ step ih =>
      obtain ⟨books, fits, develops⟩ := ih
      exact ⟨step.balanced books, step.fits fits, develops.trans step.develops⟩

theorem stepsBy_optimizeWhen (enabled : Bool) (policy : Policy) (folder : Folder) :
    StepsBy Keeps (optimizeWhen enabled policy folder) := by
  cases enabled with
  | true => exact (stepsBy_optimize policy folder).bind fun _ => stepsBy_pure _
  | false => exact stepsBy_pure _

/-- A run writes its targets, and the temporaries among them are forgotten. -/
theorem stepsBy_carryOut : StepsBy Keeps carryOut := by
  intro e
  refine .single fun valid => ?_
  by_cases covered : ∀ i ∈ e.program.instructions, i.Covered e.context.table
  case neg =>
    obtain ⟨failure, failed⟩ := fails_carryOut covered
    rw [failed]
    exact ⟨valid, .refl _⟩
  obtain ⟨hs, listed⟩ := Option.isSome_iff_exists.mp (Program.isSome_temporaries covered)
  have members := (Program.temporaries_spec listed).2
  obtain ⟨m, prepares, outcome⟩ := carryOut_run listed
  have after : (carryOut.run.run e).2 = e.leaving hs (e.draft.advance m).1 := by
    split at outcome
    · rw [outcome]
    · obtain ⟨failure, failed⟩ := outcome
      rw [failed]
  rw [after]
  refine ⟨⟨⟨valid.consistent.names, valid.consistent.aliases, valid.consistent.books, ?_, ?_⟩,
    valid.fits⟩, .refl _⟩
  · exact Store.WellKinded.foldl_erase (Machine.wellKinded_advance
      (fun i hi => (valid.fits i hi).typed) (prepares.kinded valid.consistent.kinded)) hs
  · intro h temporary
    by_cases listed : h ∈ hs
    · exact Store.get?_foldl_erase_of_mem _ listed
    · have unwritten : h ∉ Instruction.outputs e.program.instructions := by
        intro written
        obtain ⟨i, hi, output⟩ := Instruction.mem_outputs.mp written
        exact listed ((members h).mpr ⟨List.mem_flatMap.mpr
          ⟨i, hi, Instruction.mem_mentions_of_output output⟩, temporary⟩)
      calc (hs.foldl Store.erase (e.draft.advance m).1.store).get? h
          = (e.draft.advance m).1.store.get? h := Store.get?_foldl_erase _ listed
        _ = m.store.get? h := Machine.get?_advance_of_notMem m unwritten
        _ = e.context.store.get? h := prepares.value h listed
        _ = none := valid.consistent.forgotten h temporary

theorem stepsBy_release : StepsBy Keeps release := by
  intro e
  refine .single fun valid => ?_
  rw [release, run_get_bind, ExceptT.run_bind, StateT.run_bind, run_outcome, Context.releaseTemporaries]
  cases e.program.temporaries e.context.table with
  | error failure => exact ⟨valid, .refl _⟩
  | ok hs =>
      have table (w : Workspace) : (hs.foldl Workspace.release w).table = w.table := by
        induction hs generalizing w with
        | nil => rfl
        | cons h hs ih =>
            rw [List.foldl_cons, ih, Workspace.table_release]
      have same := table e.context.workspace
      refine valid.withDraft (d := ⟨hs.foldl Workspace.release e.context.workspace, e.program⟩)
        (List.foldlRecOn hs Workspace.release valid.consistent.books fun _ b h _ => b.release h) ?_ ?_
      · intro i hi
        rw [same]
        exact valid.fits i hi
      · rw [same]
        exact .refl _

theorem stepsBy_generate (options : Options) : StepsBy Keeps (generate options) :=
  stepsBy_get.bind fun _ => (stepsBy_optimizeWhen _ _ _).bind fun _ => stepsBy_get.bind fun _ =>
    (stepsBy_outcome _).bind fun _ => (stepsBy_outcome _).bind fun _ => (stepsBy_outcome _).bind fun _ =>
      stepsBy_pure _

theorem stepsBy_generateFunction (name : String) (options : Options) :
    StepsBy Keeps (generateFunction name options) :=
  (stepsBy_generate options).bind fun _ => stepsBy_get.bind fun _ =>
    (stepsBy_mapM (fun _ => stepsBy_outcome _) _).bind fun _ => stepsBy_pure _

theorem stepsBy_execute (optimize : Bool) : StepsBy Keeps (execute optimize) := by
  rw [execute_eq]
  exact (stepsBy_optimizeWhen _ _ _).bind fun _ => stepsBy_carryOut.bind fun _ => stepsBy_pure _

end Compilation

namespace Table

theorem get?_add (t : Table) (v : Variable) (h : Handle) :
    (t.add v).2.get? h = if h = ⟨t.size⟩ then some v else t.get? h := by
  obtain ⟨n⟩ := h
  simp only [add, get?, size, Array.getElem?_push, Handle.mk.injEq]

theorem extends_add (t : Table) (v : Variable) : t.Extends (t.add v).2 := by
  intro h u hu
  rw [get?_add, if_neg, hu]
  rintro rfl
  simp [get?, size] at hu

/-- More entries, and no temporaries among them. -/
structure Gains (t t' : Table) : Prop where
  entries : t.Extends t'
  temporary : ∀ h v, t'.get? h = some v → v.temporary = true → t.get? h = some v

theorem gains_add (t : Table) {v : Variable} (user : v.temporary = false) : t.Gains (t.add v).2 where
  entries := t.extends_add v
  temporary h u hu temporary := by
    rw [get?_add] at hu
    split at hu
    · cases hu
      simp [user] at temporary
    · exact hu

theorem gains_intern (t : Table) {v : Variable} (user : v.temporary = false) :
    t.Gains (t.intern v).2 := by
  unfold intern
  split
  · exact ⟨fun _ _ => id, fun _ _ hv _ => hv⟩
  · exact ⟨(t.gains_add user).entries, (t.gains_add user).temporary⟩

theorem gains_integer (t : Table) (value : Int64) : t.Gains (t.integer value).2 := by
  unfold integer
  exact t.gains_intern rfl

theorem gains_double (t : Table) (value : Float) : t.Gains (t.double value).2 := by
  unfold double
  exact t.gains_intern rfl

theorem gains_sequence (t : Table) (range : IndexRange) : t.Gains (t.sequence range).2 := by
  unfold sequence
  exact t.gains_add rfl

end Table

theorem Table.Grounded.add {t : Table} (grounded : t.Grounded) {v : Variable}
    (listed : ∀ range, v.range? = some range → ∀ k ∈ range.referenced, (t.get? k).isSome) :
    (t.add v).2.Grounded := by
  refine grounded.extend (t.extends_add v) fun h range missing found k hk =>
    (t.extends_add v).isSome_get? ?_
  rw [range?, get?_add] at found
  split at found
  · exact listed range found k hk
  · simp [missing] at found

namespace Table.Grounded

variable {t : Table}

theorem intern (grounded : t.Grounded) {v : Variable} (plain : v.range? = none) :
    (t.intern v).2.Grounded := by
  have added : (t.add v).2.Grounded := grounded.add fun range hr => by simp [plain] at hr
  unfold Table.intern
  split
  · exact grounded
  · exact added

theorem integer (grounded : t.Grounded) (value : Int64) : (t.integer value).2.Grounded := by
  unfold Table.integer
  exact grounded.intern rfl

theorem double (grounded : t.Grounded) (value : Float) : (t.double value).2.Grounded := by
  unfold Table.double
  exact grounded.intern rfl

theorem sequence (grounded : t.Grounded) {range : IndexRange}
    (listed : ∀ k ∈ range.referenced, (t.get? k).isSome) : (t.sequence range).2.Grounded := by
  unfold Table.sequence
  exact grounded.add fun _ hr => by cases hr; exact listed

end Table.Grounded

namespace Workspace

theorem Balanced.gain {w : Workspace} (b : w.Balanced) {t : Table} (gains : w.table.Gains t) :
    Balanced { w with table := t } :=
  b.withTable (fun h v hv ht => ⟨v, gains.temporary h v hv ht, ht, rfl, rfl⟩) fun h hh => by
    obtain ⟨v, hv, ht⟩ := b.live h hh
    exact ⟨v, gains.entries h v hv, ht⟩

end Workspace

/-- A declaration finds the variable, or enters it. -/
theorem Context.declare_cases {c c' : Context} {name : String} {kind : Kind} {h : Handle}
    (declared : c.declare name kind = .ok (h, c')) :
    kind ≠ .sequence ∧
      (c.aliases.lookup name = some h ∧ c.table.fetchKind h = .ok kind ∧ c' = c ∨
        c.aliases.lookup name = none ∧ ∃ content : Content, content.kind = kind ∧ h = ⟨c.table.size⟩ ∧
          c' = { c with
            workspace.table := (c.table.add (.named name content)).2
            aliases := c.aliases ++ [(name, h)] }) := by
  cases hc : contentOf kind with
  | error e =>
      simp only [declare, hc] at declared
      cases declared
  | ok content =>
      obtain ⟨plain, same⟩ : kind ≠ .sequence ∧ content.kind = kind := by
        cases kind <;> cases hc <;> exact ⟨by simp, rfl⟩
      refine ⟨plain, ?_⟩
      simp only [declare, hc] at declared
      split at declared
      · next k found =>
          cases hk : c.table.fetchKind k with
          | error e =>
              rw [hk] at declared
              cases declared
          | ok existing =>
              rw [hk] at declared
              change (if existing = kind then pure (k, c) else report _ : Outcome _) = _ at declared
              split at declared
              · next same =>
                  cases declared
                  exact .inl ⟨found, same ▸ hk, rfl⟩
              · cases declared
      · next missing =>
          cases declared
          exact .inr ⟨missing, content, same, rfl, rfl⟩

namespace Context.Consistent

variable {c c' : Context} {name : String} {kind : Kind} {h : Handle}

theorem gain (consistent : c.Consistent) {t : Table} (gains : c.table.Gains t) :
    Consistent { c with workspace.table := t } :=
  consistent.evolve (consistent.books.gain gains) (.of_extends gains.entries)

theorem withGenerator (consistent : c.Consistent) (g : Generator) :
    Consistent { c with machine := { c.machine with generator := g } } :=
  ⟨consistent.names, consistent.aliases, consistent.books, consistent.kinded, consistent.forgotten⟩

/-- Declaring gives the handle of a variable of the user, of the kind asked for. -/
theorem declare (consistent : c.Consistent) (declared : c.declare name kind = .ok (h, c')) :
    c'.Consistent ∧ c.table.Develops c'.table ∧
      ∃ v, c'.table.get? h = some v ∧ v.temporary = false ∧ v.kind = kind := by
  obtain ⟨plain, known | ⟨missing, content, same, rfl, rfl⟩⟩ := declare_cases declared
  · obtain ⟨found, fetched, rfl⟩ := known
    obtain ⟨before, after, split, -⟩ := List.lookup_eq_some_iff.mp found
    obtain ⟨v, hv, user, -⟩ := consistent.aliases (name, h) (by simp [split])
    exact ⟨consistent, .refl _, v, hv, user, by simpa [Table.fetchKind, Table.fetch, hv] using fetched⟩
  · have gains : c.table.Gains (c.table.add (.named name content)).2 := c.table.gains_add rfl
    have entered : (c.table.add (.named name content)).2.get? ⟨c.table.size⟩ =
        some (.named name content) := by rw [Table.get?_add, if_pos rfl]
    have old := consistent.gain gains
    refine ⟨⟨?_, fun entry he => ?_, old.books, old.kinded, old.forgotten⟩,
      ⟨.of_extends gains.entries, fun grounded => grounded.add fun range hr => ?_⟩,
      .named name content, entered, rfl, same⟩
    · rw [List.map_append, List.map_singleton]
      refine consistent.names.append (List.nodup_singleton name) ?_
      rw [List.disjoint_singleton]
      intro taken
      obtain ⟨entry, he, rfl⟩ := List.mem_map.mp taken
      simpa using List.lookup_eq_none_iff.mp missing entry he
    · obtain before | new := List.mem_append.mp he
      · exact old.aliases entry before
      · obtain rfl := List.mem_singleton.mp new
        exact ⟨_, entered, rfl, fun sequence => plain (same.symm.trans sequence)⟩
    · refine absurd (same.symm.trans ?_) plain
      cases content <;> simp_all [Variable.range?, Variable.named, Content.kind]

/-- The value of a variable of the user is replaced by one of its kind. -/
theorem setValue (consistent : c.Consistent) {v : Variable} (hv : c.table.get? h = some v)
    (user : v.temporary = false) {x : Value} (same : v.kind = x.kind) :
    Consistent { c with machine := { c.machine with store := c.store.set h x } } where
  names := consistent.names
  aliases := consistent.aliases
  books := consistent.books
  kinded := consistent.kinded.set (by simp [Table.kind?, hv, same])
  forgotten k temporary := by
    have other : k ≠ h := by
      rintro rfl
      obtain ⟨u, hu, ht⟩ := temporary
      obtain rfl : v = u := Option.some.inj (hv.symm.trans hu)
      simp [user] at ht
    exact (Store.get?_set _ _ _ _).trans ((if_neg other).trans (consistent.forgotten k temporary))

theorem bind (consistent : c.Consistent) {value : Value} (bound : c.bind name value = .ok (h, c')) :
    c'.Consistent ∧ c.table.Develops c'.table := by
  rw [Context.bind] at bound
  cases hd : c.declare name value.kind with
  | error e =>
      rw [hd] at bound
      cases bound
  | ok pair =>
      rw [hd] at bound
      cases bound
      obtain ⟨declared, develops, v, hv, user, same⟩ := consistent.declare hd
      exact ⟨declared.setValue hv user same, develops⟩

end Context.Consistent

end MatrixCode
