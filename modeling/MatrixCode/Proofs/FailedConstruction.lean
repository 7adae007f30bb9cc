import MatrixCode.Proofs.Readiness
import MatrixCode.Proofs.SymbolicOptimization

/-!
Constructions that fail. When the operands are in the table, a construction ends with an instruction or
with an error, and an error leaves everything as it was: the rollback has nothing to undo, since nothing is
made before the last check has passed. An instruction that is made has a variable of its own, unless it is
a copy, and no instruction before it refers to that variable.
-/

namespace MatrixCode

/-- An error was reported; the computation did not break off. -/
def Failure.IsReported (failure : Failure) : Prop := ∃ error, failure = .reported error

/-! Rolling back at once. -/

namespace Table

/-- The tables that come about. -/
inductive Reachable : Table → Prop where
  | initial : Reachable .initial
  | add {t : Table} (reachable : Reachable t) (v : Variable) : Reachable (t.add v).2
  | integer {t : Table} (reachable : Reachable t) (value : Int64) : Reachable (t.integer value).2
  | double {t : Table} (reachable : Reachable t) (value : Float) : Reachable (t.double value).2
  | sequence {t : Table} (reachable : Reachable t) (range : IndexRange) : Reachable (t.sequence range).2
  | truncate {t : Table} (reachable : Reachable t) (size : Nat) : Reachable (t.truncate size)
  | modify {t : Table} (reachable : Reachable t) (h : Handle) (f : Variable → Variable) :
      Reachable (t.modify h f)

/-- The literals that the table remembers are entries of it. -/
def Remembers (t : Table) : Prop := ∀ entry ∈ t.literals, entry.2.index < t.size

namespace Remembers

variable {t : Table}

theorem add (remembers : t.Remembers) (v : Variable) : (t.add v).2.Remembers := by
  intro entry member
  have := remembers entry member
  simp only [Table.add, Table.size, Array.size_push] at this ⊢
  omega

theorem intern (remembers : t.Remembers) (v : Variable) : (t.intern v).2.Remembers := by
  unfold Table.intern
  split
  · exact remembers
  · refine List.forall_mem_cons.mpr ⟨?_, remembers.add v⟩
    simp [Table.add, Table.size]

theorem truncate (remembers : t.Remembers) (size : Nat) : (t.truncate size).Remembers := by
  intro entry member
  obtain ⟨member, below⟩ := List.mem_filter.mp member
  have := remembers entry member
  have below : entry.2.index < size := of_decide_eq_true below
  simp only [Table.truncate, Table.size, Array.take_eq_extract, Array.size_extract] at *
  omega

theorem modify (remembers : t.Remembers) (h : Handle) (f : Variable → Variable) :
    (t.modify h f).Remembers := by
  intro entry member
  simpa [Table.modify, Table.size] using! remembers entry member

end Remembers

theorem Reachable.remembers {t : Table} (reachable : t.Reachable) : t.Remembers := by
  induction reachable with
  | initial =>
      have none : Remembers ⟨#[], []⟩ := by
        intro _ member
        cases member
      exact (none.intern _).intern _
  | add _ v ih => exact ih.add v
  | integer _ value ih | double _ value ih => exact ih.intern _
  | sequence _ range ih => exact ih.add _
  | truncate _ size ih => exact ih.truncate size
  | modify _ h f ih => exact ih.modify h f

theorem Remembers.truncate_size {t : Table} (remembers : t.Remembers) : t.truncate t.size = t := by
  have entries : (t.truncate t.size).entries = t.entries := Array.extract_size
  have literals : (t.truncate t.size).literals = t.literals :=
    List.filter_eq_self.mpr fun entry member => decide_eq_true (remembers entry member)
  exact congrArg₂ Table.mk entries literals

end Table

/-- A rollback has nothing to undo right after the checkpoint. -/
theorem Workspace.rollback_checkpoint {w : Workspace} (remembers : w.table.Remembers)
    (live : ∀ h ∈ w.temporaries.live, (w.table.get? h).isSome) : w.rollback w.checkpoint = w :=
  congrArg₂ Workspace.mk remembers.truncate_size (temporaries_rollback live)

/-! Constructions that end with an error. -/

namespace Construction

variable {α β : Type} {w : Workspace}

/-- The construction reports an error, if it fails. -/
def Reports (c : Construction α) (w : Workspace) : Prop := FailsOnly Failure.IsReported (c.run.run w).1

theorem reports_pure (a : α) : Reports (pure a) w := failsOnly_ok a

theorem reports_report (e : Error) : Reports (report e : Construction α) w := failsOnly_error.mpr ⟨e, rfl⟩

theorem reports_query {f : Table → Outcome α} (answered : FailsOnly Failure.IsReported (f w.table)) :
    Reports (query f) w := by
  rw [Reports, run_query]
  exact answered

theorem Observes.reports_bind {c : Construction α} {f : α → Construction β} (hc : Observes c)
    (first : c.Reports w) (rest : ∀ a, (f a).Reports w) : (c >>= f).Reports w := by
  refine failsOnly_run_bind first fun a w' ran => ?_
  obtain rfl : w' = w := by rw [← hc w, ran]
  exact rest a

theorem reports_allocate (form : Form) (inputs : List Handle) : Reports (allocate form inputs) w :=
  failsOnly_ok _

theorem reports_allocate_bind (form : Form) (inputs : List Handle) (f : Instruction → α) :
    Reports (do return f (← allocate form inputs)) w := failsOnly_ok _

theorem reports_guarded {c : Construction α} (reports : c.Reports w) : (guarded c).Reports w := by
  rw [Reports, guarded, ExceptT.run_mk, StateT.run]
  rw [Reports] at reports
  cases ran : c.run.run w with
  | mk result w' =>
      rw [ran] at reports
      cases result with
      | ok a => exact failsOnly_ok a
      | error e => exact failsOnly_error.mpr (failsOnly_error.mp reports)

theorem reports_ite {p : Prop} [Decidable p] {c c' : Construction α} (hc : c.Reports w)
    (hc' : c'.Reports w) : Reports (if p then c else c') w := by
  split
  · exact hc
  · exact hc'

theorem reports_forM {f : β → Construction Unit} {xs : List β} (observes : ∀ x, Observes (f x))
    (each : ∀ x ∈ xs, (f x).Reports w) : Reports (xs.forM f) w := by
  induction xs with
  | nil => exact reports_pure ()
  | cons x xs ih =>
      obtain ⟨first, rest⟩ := List.forall_mem_cons.mp each
      exact (observes x).reports_bind first fun _ => ih rest

/-- A handle that is looked up may be wrong. -/
theorem reports_kindOf (h : Handle) : Reports (kindOf h) w := by
  refine reports_query (failsOnly_map.mpr ?_)
  rw [Table.lookup]
  split
  · exact failsOnly_ok _
  · exact failsOnly_error.mpr ⟨_, rfl⟩

theorem reports_kindOf_bind {h : Handle} {f : Kind → Construction β} (rest : ∀ kind, (f kind).Reports w) :
    Reports (kindOf h >>= f) w :=
  (observes_query _).reports_bind (reports_kindOf h) rest

/-- The operands of an error message have to be there. -/
theorem reports_describe {hs : List Handle} (there : ∀ h ∈ hs, (w.table.get? h).isSome)
    (e : List Kind → Error) : Reports (do report (e (← query (·.describe hs))) : Construction α) w := by
  refine (observes_query _).reports_bind (reports_query (failsOnly_mapM fun h member => ?_))
    fun _ => reports_report _
  obtain ⟨v, found⟩ := Option.isSome_iff_exists.mp (there h member)
  simp [Table.fetchKind, Table.fetch, found]

theorem reports_screened (p : Primitive) {a b : Handle} (there : ∀ h ∈ [a, b], (w.table.get? h).isSome) :
    Reports (screened p a b) w := by
  unfold screened
  split
  · exact reports_kindOf_bind fun _ => reports_kindOf_bind fun _ =>
      reports_ite (reports_describe there _) (reports_ite (reports_describe there _) (reports_pure _))
  · exact reports_kindOf_bind fun _ => reports_kindOf_bind fun _ => reports_pure _
  · exact reports_kindOf_bind fun _ => reports_kindOf_bind fun _ => reports_pure _
  · exact reports_pure p

/-- A range is classified by its operands, and by the step of a range variable. -/
theorem reports_checkRange (grounded : w.table.Grounded) (range : List Handle) :
    Reports (checkRange range) w := by
  have operand (h : Handle) : FailsOnly Failure.IsReported (Extent.classify w.table h) := by
    rw [Extent.classify, Table.lookup]
    cases found : w.table.get? h with
    | none => exact failsOnly_bind.mpr ⟨failsOnly_error.mpr ⟨_, rfl⟩, by rintro _ ⟨⟩⟩
    | some v =>
        refine failsOnly_bind.mpr ⟨failsOnly_ok v, ?_⟩
        rintro _ ⟨⟩
        split
        · exact failsOnly_pure _
        · exact failsOnly_pure _
        · next r content =>
            have listed : w.table.range? h = some r := by simp [Table.range?, found, Variable.range?, content]
            exact failsOnly_of_isSome (Table.Grounded.isSome_ofRange (grounded h r listed))
        · exact failsOnly_report.mpr ⟨_, rfl⟩
  refine (observes_query _).reports_bind (reports_query ?_) fun _ => reports_pure ()
  unfold Addressing.classify
  split
  · exact failsOnly_bind.mpr ⟨operand _, fun _ _ => failsOnly_pure _⟩
  · exact failsOnly_bind.mpr ⟨operand _, fun _ _ =>
      failsOnly_bind.mpr ⟨operand _, fun _ _ => failsOnly_pure _⟩⟩
  · exact failsOnly_report.mpr ⟨_, rfl⟩

end Construction

namespace Request

/-- The handles that a request is about. -/
def handles : Request → List Handle
  | unary _ a => [a]
  | binary _ a b => [a, b]
  | assemble rows => rows.flatten
  | complex re im => [re, im]
  | extract a range => a :: range
  | element a indices => a :: indices
  | copy source target => [source, target]
  | copyRange source target range => source :: target :: range

open Construction

/-- A request for operands in the table ends with an instruction or with an error. -/
theorem reports_perform {r : Request} {w : Workspace} (grounded : w.table.Grounded)
    (there : ∀ h ∈ r.handles, (w.table.get? h).isSome) : r.perform.Reports w := by
  cases r with
  | unary p a =>
      refine reports_guarded (reports_kindOf_bind fun kind => ?_)
      split
      · exact reports_allocate _ _
      · exact reports_describe there _
  | binary p a b =>
      refine (observes_screened p a b).reports_bind (reports_screened p there) fun q => ?_
      refine reports_guarded (reports_kindOf_bind fun left => reports_kindOf_bind fun right => ?_)
      split
      · exact reports_allocate _ _
      · exact reports_describe there _
  | assemble rows =>
      refine reports_guarded ((observes_forM observes_checkItem _).reports_bind ?_ fun _ =>
        reports_allocate_bind _ _ _)
      refine reports_forM observes_checkItem fun h member => reports_kindOf_bind fun kind => ?_
      exact reports_ite (reports_describe (by simpa using there h member) _) (reports_pure ())
  | complex re im => exact reports_describe there _
  | extract a range =>
      have mismatched : Reports (mismatch .extract [a] : Construction PUnit) w :=
        reports_describe (by simpa using there a (by simp [handles])) _
      refine reports_guarded (reports_kindOf_bind fun kind => ?_)
      have made : Reports (do
          checkRange range
          return { ← allocate ⟨.extract, .bare, .matrix, []⟩ [a] with range := some range }) w :=
        (observes_checkRange range).reports_bind (reports_checkRange grounded range) fun _ =>
          reports_allocate_bind _ _ _
      exact reports_ite ((observes_mismatch _ _).reports_bind mismatched fun _ => made) made
  | element a indices =>
      have indexed : Reports (do
          indices.forM fun i => do
            if (← kindOf i) ≠ .integer then mismatch .element (a :: indices)
          allocate ⟨.element, .bare, .double, []⟩ (a :: indices)) w := by
        have observes (h : Handle) : Observes (do
            if (← kindOf h) ≠ .integer then mismatch .element (a :: indices)) :=
          (observes_query _).bind fun _ => .ite (observes_mismatch _ _) (observes_pure ())
        refine (observes_forM observes _).reports_bind (reports_forM observes fun h _ => ?_) fun _ =>
          reports_allocate _ _
        exact reports_kindOf_bind fun _ => reports_ite (reports_describe there _) (reports_pure ())
      refine reports_guarded (reports_kindOf_bind fun kind => ?_)
      exact reports_ite ((observes_mismatch _ _).reports_bind (reports_describe there _) fun _ => indexed)
        indexed
  | copy source target =>
      refine reports_kindOf_bind fun left => reports_kindOf_bind fun right => ?_
      split
      · exact reports_pure _
      · exact reports_describe there _
  | copyRange source target range =>
      refine reports_kindOf_bind fun left => reports_kindOf_bind fun right => ?_
      split
      · exact (observes_checkRange range).reports_bind (reports_checkRange grounded range) fun _ =>
          reports_pure _
      · exact reports_describe (fun h member => there h (List.mem_append_left range member)) _

end Request

/-- A request that fails leaves the workspace as it was. -/
theorem Request.eq_of_error {r : Request} {w w' : Workspace} {failure : Failure}
    (remembers : w.table.Remembers) (live : ∀ h ∈ w.temporaries.live, (w.table.get? h).isSome)
    (failed : r.perform.run.run w = (.error failure, w')) : w' = w := by
  obtain same | undone := Request.fails_perform ⟨failure, failed⟩
  · exact same
  · rw [undone, Workspace.rollback_checkpoint remembers live]

/-! Instructions that have a variable of their own. -/

/-- One variable more, and it is a live temporary. -/
structure Workspace.Appends (w w' : Workspace) (h : Handle) : Prop where
  entries : ∃ v : Variable, v.temporary = true ∧ w'.table.entries = w.table.entries.push v
  literals : w'.table.literals = w.table.literals
  handle : h = ⟨w.table.size⟩
  live : h ∈ w'.temporaries.live

theorem Workspace.appends_create (w : Workspace) (kind : Kind) :
    w.Appends (w.create kind).2 (w.create kind).1 where
  entries := ⟨_, (nextTemporary_spec w.temporaries.created kind).1, rfl⟩
  literals := rfl
  handle := rfl
  live := List.mem_insert_self

theorem Workspace.Appends.get?_eq_none {w w' : Workspace} {h : Handle} (appends : w.Appends w' h) :
    w.table.get? h = none := by
  rw [appends.handle, w.get?_of_fresh]

theorem Workspace.Appends.extends {w w' : Workspace} {h : Handle} (appends : w.Appends w' h) :
    w.table.Extends w'.table := by
  intro k v found
  obtain ⟨new, -, entries⟩ := appends.entries
  obtain ⟨bound, same⟩ := Array.getElem?_eq_some_iff.mp found
  rw [Table.get?, entries, Array.getElem?_push_lt bound, same]

/-- A copy makes no variable, any other instruction one of its own. -/
theorem Request.appends_of_perform {r : Request} {w w' : Workspace} {i : Instruction}
    (made : Yields r.perform w i w') :
    (i.primitive = .copy → w' = w) ∧
      (i.primitive ≠ .copy → ∃ h, i.output = some h ∧ w.Appends w' h) := by
  obtain ⟨kind, rfl, makes⟩ | ⟨rfl, ⟨_, _, copies⟩ | ⟨_, copies⟩⟩ := Request.of_perform made
  · exact ⟨fun copy => absurd copy makes.copy, fun _ => ⟨_, makes.output, w.appends_create kind⟩⟩
  · exact ⟨fun _ => rfl, fun other => absurd copies.primitive other⟩
  · exact ⟨fun _ => rfl, fun other => absurd copies.primitive other⟩

namespace Instruction

variable {t t' : Table} {i : Instruction} {h : Handle}

/-- More entries do not change what an instruction mentions. -/
theorem mentions_of_extends (covered : i.Covered t) (ext : t.Extends t') : i.mentions t' = i.mentions t := by
  have through : ∀ k ∈ i.range.getD [], t'.through k = t.through k := by
    intro k member
    obtain ⟨v, found⟩ := Option.isSome_iff_exists.mp (covered.range k member)
    simp [Table.through, Table.range?, found, ext k v found]
  rw [mentions, mentions, sources, sources, List.flatMap_congr through]

/-- An instruction does not refer to an entry that is new. -/
theorem Fits.exists_references (fits : i.Fits t) (grounded : t.Grounded) (ext : t.Extends t')
    (new : t.get? h = none) : ∃ hs, i.references t' = .ok hs ∧ h ∉ hs := by
  have covered := fits.covered grounded
  refine ⟨i.mentions t', Outcome.toOption_eq_some.mp ?_, fun mentioned => ?_⟩
  · rw [toOption_references, if_pos fun k member => ext.isSome_get? (covered.range k member)]
  · rw [mentions_of_extends covered ext] at mentioned
    have found := covered.mentioned h mentioned
    rw [new] at found
    cases found

end Instruction

/-! Drafts and equations that ask for an instruction. -/

/-- What follows a construction, and what a construction that fails leaves. -/
theorem Drafting.run_construct_bind {α : Type} (c : Construction Instruction) (k : Instruction → Drafting α)
    (d : Draft) :
    (construct c >>= k).run.run d = match c.run.run d.workspace with
      | (.ok i, w) => (k i).run.run { d with workspace := w }
      | (.error e, w) => (.error e, { d with workspace := w }) := by
  rw [ExceptT.run_bind, StateT.run_bind, construct, ExceptT.run_mk, StateT.run]
  cases c.run.run d.workspace with
  | mk result w => cases result <;> rfl

/-- What a draft may be asked to do. -/
inductive Call where
  | request (r : Request)
  | assign (source target : Handle)
  | assignRange (source target : Handle) (range : List Handle)
  deriving DecidableEq, Repr

namespace Call

/-- The instruction that is asked for. -/
def toRequest : Call → Request
  | request r => r
  | assign source target => .copy source target
  | assignRange source target range => .copyRange source target range

def carryOut : Call → Drafting Unit
  | request r => do let _ ← Drafting.apply r.perform
  | assign source target => .assign source target
  | assignRange source target range => .assignRange source target range

variable {call : Call} {d : Draft} {w : Workspace}

/-- A call fails when its construction does, and the program is as before. -/
theorem run_carryOut_of_error {failure : Failure}
    (failed : call.toRequest.perform.run.run d.workspace = (.error failure, w)) :
    call.carryOut.run.run d = (.error failure, { d with workspace := w }) := by
  cases call with
  | request r =>
      simp only [toRequest] at failed
      simp only [carryOut, Drafting.apply, bind_assoc, Drafting.run_construct_bind, failed]
  | assign source target | assignRange source target range =>
      simp only [toRequest, Request.perform] at failed
      simp only [carryOut, Drafting.assign, Drafting.assignRange, Drafting.run_construct_bind, failed]

/-- A call adds what its construction makes. -/
theorem run_carryOut_of_ok {i : Instruction} (made : Yields call.toRequest.perform d.workspace i w) :
    ∃ p, Yields call.carryOut d () ⟨w, p⟩ ∧ p.instructions = d.program.instructions ++ [i] := by
  cases call with
  | request r =>
      obtain ⟨h, output⟩ : ∃ h, i.output = some h := by
        obtain ⟨kind, -, makes⟩ | ⟨-, ⟨_, target, copies⟩ | ⟨target, copies⟩⟩ := Request.of_perform made
        · exact ⟨_, makes.output⟩
        · exact ⟨target, copies.output⟩
        · exact ⟨target, copies.output⟩
      simp only [Yields, toRequest] at made
      refine ⟨d.program.push i, ?_, rfl⟩
      simp only [Yields, carryOut, Drafting.apply, bind_assoc, Drafting.run_construct_bind, made, output]
      rfl
  | assign source target | assignRange source target range =>
      simp only [Yields, toRequest, Request.perform] at made
      refine ⟨{ d.program.push i with output := some target }, ?_, rfl⟩
      simp only [Yields, carryOut, Drafting.assign, Drafting.assignRange, Drafting.run_construct_bind, made]
      rfl

/-- A call fails when its construction does, and the program is as before. Otherwise the program has one
instruction more. -/
theorem carryOut_cases (call : Call) (d : Draft) :
    (∃ failure w, call.toRequest.perform.run.run d.workspace = (.error failure, w) ∧
      call.carryOut.run.run d = (.error failure, { d with workspace := w })) ∨
    ∃ i w p, Yields call.toRequest.perform d.workspace i w ∧ Yields call.carryOut d () ⟨w, p⟩ ∧
      p.instructions = d.program.instructions ++ [i] := by
  cases made : call.toRequest.perform.run.run d.workspace with
  | mk result w =>
      cases result with
      | error failure => exact .inl ⟨failure, w, rfl, run_carryOut_of_error made⟩
      | ok i =>
          obtain ⟨p, carried, grown⟩ := run_carryOut_of_ok made
          exact .inr ⟨i, w, p, made, carried, grown⟩

/-- A construction that fails changes nothing. In a table that came about as tables do, with the live
temporaries, the operands and the variables in ranges there, a call ends with an instruction or with an
error. After an error the workspace is as before, and so is an equation with its program, its values and its
random numbers. Otherwise the program has one instruction more. A copy makes no variable; any other
instruction has one of its own, a live temporary that no instruction before it refers to. -/
theorem carryOut_changes (call : Call) {e : Equation} (built : e.draft.Built)
    (reachable : e.context.table.Reachable) (grounded : e.context.table.Grounded)
    (live : ∀ h ∈ e.context.workspace.temporaries.live, (e.context.table.get? h).isSome)
    (there : ∀ h ∈ call.toRequest.handles, (e.context.table.get? h).isSome) :
    (∀ failure w, call.toRequest.perform.run.run e.context.workspace = (.error failure, w) →
      failure.IsReported ∧ w = e.context.workspace) ∧
    (∀ failure e', (Compilation.drafting call.carryOut).run.run e = (.error failure, e') →
      failure.IsReported ∧ e' = e) ∧
    ∀ e', Yields (Compilation.drafting call.carryOut) e () e' → ∃ i w p,
      Yields call.toRequest.perform e.context.workspace i w ∧
      e' = ⟨{ e.context with workspace := w }, p⟩ ∧ p.instructions = e.program.instructions ++ [i] ∧
      (i.primitive = .copy → w = e.context.workspace) ∧
      (i.primitive ≠ .copy → ∃ h, i.output = some h ∧ e.context.workspace.Appends w h ∧
        ∀ j ∈ e.program.instructions, ∃ hs, j.references w.table = .ok hs ∧ h ∉ hs) := by
  have unchanged (failure : Failure) (w : Workspace)
      (failed : call.toRequest.perform.run.run e.context.workspace = (.error failure, w)) :
      failure.IsReported ∧ w = e.context.workspace :=
    ⟨Request.reports_perform grounded there failure (congrArg Prod.fst failed),
      Request.eq_of_error reachable.remembers live failed⟩
  have drafted := Compilation.run_drafting call.carryOut e
  obtain ⟨failure, w, failed, carried⟩ | ⟨i, w, p, made, carried, grown⟩ := call.carryOut_cases e.draft
  · rw [carried] at drafted
    obtain ⟨reported, rfl⟩ := unchanged failure w failed
    refine ⟨unchanged, fun _ _ failed => ?_, fun _ ran => ?_⟩
    · cases drafted.symm.trans failed
      exact ⟨reported, rfl⟩
    · cases drafted.symm.trans ran
  · rw [carried] at drafted
    obtain ⟨copied, computed⟩ := Request.appends_of_perform made
    refine ⟨unchanged, fun _ _ failed => ?_, fun _ ran => ?_⟩
    · cases drafted.symm.trans failed
    · cases drafted.symm.trans ran
      refine ⟨i, w, p, made, rfl, grown, copied, fun other => ?_⟩
      obtain ⟨h, output, appends⟩ := computed other
      exact ⟨h, output, appends, fun j member =>
        (built.fits j member).exists_references grounded appends.extends appends.get?_eq_none⟩

/-- A matrix and a range of rows, before anything is asked for. -/
def opening : Workspace :=
  ⟨((Table.initial.add (.named "a" .matrix)).2.sequence (.span ⟨0⟩ none ⟨1⟩)).2, ⟨.zero, .zero, []⟩⟩

/-- The matrix has been negated. -/
def negating : Equation :=
  ((Compilation.drafting (Call.request (.unary .negate ⟨2⟩)).carryOut).run.run
    ⟨⟨opening, .initial, []⟩, .empty⟩).2

/-- A range is no index, so it is refused. It addresses rows of the matrix, which get a variable. -/
theorem carryOut_changes_negating :
    (∃ failure : Failure, failure.IsReported ∧
      (Compilation.drafting (Call.request (.element ⟨2⟩ [⟨0⟩, ⟨3⟩])).carryOut).run.run negating =
        (.error failure, negating)) ∧
    ∃ e', Yields (Compilation.drafting (Call.request (.extract ⟨2⟩ [⟨3⟩])).carryOut) negating () e' ∧
      negating.context.workspace.Appends e'.context.workspace ⟨5⟩ ∧
      ∀ j ∈ negating.program.instructions, ∃ hs, j.references e'.context.table = .ok hs ∧ ⟨5⟩ ∉ hs := by
  have built : negating.draft.Built :=
    .request (.start opening) (.unary .negate ⟨2⟩) ⟨4⟩ (yields_of_toOption (by decide +kernel))
  have reachable : negating.context.table.Reachable := .add (.sequence (.add .initial _) _) _
  have grounded : negating.context.table.Grounded := by
    have none : Table.Grounded ⟨#[], []⟩ := fun h range found => by simp [Table.range?, Table.get?] at found
    have matrix := ((none.integer 0).integer 1).add (v := .named "a" .matrix) fun _ listed => by cases listed
    exact (Workspace.Made.created opening .matrix).grounded (matrix.sequence (by decide))
  have live : ∀ h ∈ negating.context.workspace.temporaries.live,
      (negating.context.table.get? h).isSome := by decide +kernel
  obtain ⟨-, unchanged, -⟩ := carryOut_changes (.request (.element ⟨2⟩ [⟨0⟩, ⟨3⟩])) built reachable grounded
    live (by decide +kernel)
  obtain ⟨-, -, changed⟩ := carryOut_changes (.request (.extract ⟨2⟩ [⟨3⟩])) built reachable grounded live
    (by decide +kernel)
  constructor
  · obtain ⟨failure, failed⟩ := fails_of_toOption (s := negating)
      (x := Compilation.drafting (Call.request (.element ⟨2⟩ [⟨0⟩, ⟨3⟩])).carryOut) (by decide +kernel)
    obtain ⟨reported, same⟩ := unchanged failure _ failed
    rw [same] at failed
    exact ⟨failure, reported, failed⟩
  · have ran := yields_of_toOption (s := negating) (a := ())
      (x := Compilation.drafting (Call.request (.extract ⟨2⟩ [⟨3⟩])).carryOut) (by decide +kernel)
    obtain ⟨i, w, p, made, same, -, -, computed⟩ := changed _ ran
    obtain ⟨_, -, makes⟩ := Construction.makes_of_extract made
    obtain ⟨h, -, appends, unmentioned⟩ := computed makes.copy
    obtain rfl : h = ⟨5⟩ := appends.handle
    rw [same] at ran
    exact ⟨_, ran, appends, unmentioned⟩

end Call
end MatrixCode
