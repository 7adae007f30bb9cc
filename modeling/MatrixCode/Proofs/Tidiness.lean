import MatrixCode.Proofs.Sessions
import MatrixCode.Proofs.Wording

/-!
Tidy contexts. The user calls variables by identifiers that are not those of temporaries. Every other
scalar is a temporary, a number, or a text that an instruction was folded into; such a text is put
together from the texts of operands that are known, and these are no temporaries. So it names variables
of the user, and words for numbers that are not finite, and nothing in it looks like a temporary. This
holds whatever is done in a session, with folders that go by the operands.
-/

namespace MatrixCode

namespace Identifier

/-- The name of a variable of the user: an identifier that is not that of a temporary. -/
structure Ordinary (name : String) : Prop where
  identifier : isName name
  apart : Workspace.isTemporaryName name = false

instance (name : String) : Decidable (Ordinary name) :=
  decidable_of_iff (isName name ∧ Workspace.isTemporaryName name = false)
    ⟨fun ⟨identifier, apart⟩ => ⟨identifier, apart⟩, fun ⟨identifier, apart⟩ => ⟨identifier, apart⟩⟩

end Identifier

open Identifier (NamesOnly Ordinary isPlain)

namespace NumberText

/-- The words for numbers that are not finite. -/
def nonFinite : List String := ["inf", "NaN"]

end NumberText

namespace Variable

variable {p : String → Prop}

theorem namesOnly_integerLiteral (x : Int64) : NamesOnly p (integerLiteral x).operand :=
  .of_lists (lists_integerLiteral x) (by simp)

/-- A double that is not finite is written as a word. -/
theorem namesOnly_doubleLiteral (words : ∀ word ∈ NumberText.nonFinite, p word) (x : Float) :
    NamesOnly p (doubleLiteral x).operand := by
  have infinite : NamesOnly p "inf" := .of_isName (by decide) (words _ (by decide))
  have written (named : NamesOnly p (NumberText.literal x)) : NamesOnly p (doubleLiteral x).operand := by
    have body : LiteralName.body? (doubleLiteral x).name = some (NumberText.literal x).toList :=
      LiteralName.body?_wrap_double named.line
    rwa [operand_of_body? body]
  cases decoded : Binary.decode x with
  | notANumber =>
      refine written ?_
      rw [NumberText.literal, NumberText.ofFloat, decoded]
      exact .of_isName (by decide) (words _ (by decide))
  | infinite negative =>
      refine written ?_
      rw [NumberText.literal, NumberText.ofFloat, decoded]
      cases negative with
      | false => exact infinite
      | true => exact infinite.negated
  | finite negative m q => exact .of_lists (lists_doubleLiteral decoded) (by simp)

/-- Temporaries are not known beforehand. Other variables do not look like temporaries, and the texts
of scalars name only what `p` holds of. -/
structure Tidy (p : String → Prop) (v : Variable) : Prop where
  fresh : v.temporary = true → v.constant = false
  plain : v.temporary = false → isPlain v.name
  names : v.temporary = false → v.kind.isScalar → NamesOnly p v.operand

theorem Tidy.mono {q : String → Prop} {v : Variable} (tidy : v.Tidy p) (h : ∀ word, p word → q word) :
    v.Tidy q :=
  ⟨tidy.fresh, tidy.plain, fun user scalar => (tidy.names user scalar).mono h⟩

theorem Tidy.mapRange {v : Variable} (tidy : v.Tidy p) (f : Handle → Handle) : (v.mapRange f).Tidy p := by
  unfold Variable.mapRange
  split
  · exact ⟨tidy.fresh, tidy.plain, fun _ scalar => by cases scalar⟩
  · exact tidy

theorem tidy_named {name : String} (ordinary : Ordinary name) (h : p name) (content : Content) :
    (named name content).Tidy p where
  fresh := nofun
  plain _ := (Identifier.isPlain_iff name).mpr
    (.of_words (Identifier.words_of_isName ordinary.identifier) fun temporary => by
      simp [ordinary.apart] at temporary)
  names _ _ := by
    have literal : (named name content).isLiteral = false := Grammar.isLiteral_eq_false ordinary.identifier
    rw [operand_of_isLiteral_eq_false literal]
    exact .of_isName ordinary.identifier h

theorem tidy_sequence (n : Nat) (range : IndexRange) :
    (named ("seq" ++ toString n) (.sequence range)).Tidy p where
  fresh := nofun
  plain _ := by
    refine (Identifier.isPlain_iff _).mpr (.of_notMem fun letter => ?_)
    obtain letter | digit : 't' ∈ "seq".toList ∨ 't' ∈ (Nat.repr n).toList := by
      simpa [named] using letter
    · exact absurd letter (by decide)
    · exact absurd (Reader.isDigit_of_mem_repr digit) (by decide)
  names _ scalar := by cases scalar

theorem tidy_integerLiteral (x : Int64) : (integerLiteral x).Tidy p where
  fresh := nofun
  plain _ := (Identifier.isPlain_iff _).mpr (.wrap (.of_isPlain (by decide)) (.word x))
  names _ _ := namesOnly_integerLiteral x

theorem tidy_doubleLiteral (words : ∀ word ∈ NumberText.nonFinite, p word) (x : Float) :
    (doubleLiteral x).Tidy p where
  fresh := nofun
  plain _ := (Identifier.isPlain_iff _).mpr (.wrap (.of_isPlain (by decide)) (.double x))
  names _ _ := namesOnly_doubleLiteral words x

theorem tidy_foldInto (v : Variable) {text : String} (names : NamesOnly p text) (plain : isPlain text)
    (precedence : Nat) : (v.foldInto text precedence).Tidy p where
  fresh := nofun
  plain _ := (Identifier.isPlain_iff _).mpr
    (v.cites_foldInto ((Identifier.isPlain_iff text).mp plain) precedence)
  names _ _ := by rwa [v.operand_foldInto names.line]

end Variable

/-- Every entry is tidy. -/
def Table.Tidy (p : String → Prop) (t : Table) : Prop := ∀ h v, t.get? h = some v → v.Tidy p

namespace Table.Tidy

variable {p : String → Prop} {t : Table}

theorem mono {q : String → Prop} (tidy : t.Tidy p) (h : ∀ word, p word → q word) : t.Tidy q :=
  fun k v hv => (tidy k v hv).mono h

theorem namesWithin (tidy : t.Tidy p) (of : Handle → Prop) : t.NamesWithin of fun _ => p :=
  fun h v _ hv => (tidy h v hv).names

theorem add (tidy : t.Tidy p) {v : Variable} (new : v.Tidy p) : (t.add v).2.Tidy p := by
  intro h u hu
  rw [get?_add] at hu
  split at hu
  · cases hu
    exact new
  · exact tidy h u hu

theorem intern (tidy : t.Tidy p) {v : Variable} (new : v.Tidy p) : (t.intern v).2.Tidy p := by
  unfold Table.intern
  split
  · exact tidy
  · exact tidy.add new

theorem integer (tidy : t.Tidy p) (value : Int64) : (t.integer value).2.Tidy p := by
  unfold Table.integer
  exact tidy.intern (Variable.tidy_integerLiteral value)

theorem double (tidy : t.Tidy p) (words : ∀ word ∈ NumberText.nonFinite, p word) (value : Float) :
    (t.double value).2.Tidy p := by
  unfold Table.double
  exact tidy.intern (Variable.tidy_doubleLiteral words value)

theorem sequence (tidy : t.Tidy p) (range : IndexRange) : (t.sequence range).2.Tidy p := by
  unfold Table.sequence
  exact tidy.add (Variable.tidy_sequence t.size range)

theorem create {w : Workspace} (tidy : w.table.Tidy p) (kind : Kind) : (w.create kind).2.table.Tidy p := by
  refine tidy.add ?_
  cases kind
  all_goals exact ⟨fun _ => rfl, nofun, nofun⟩

theorem made {w w' : Workspace} (tidy : w.table.Tidy p) (made : w.Made w') : w'.table.Tidy p := by
  cases made with
  | same => exact tidy
  | created kind => exact tidy.create kind
  | undone => exact fun h v hv => tidy h v ((w.get?_rollback h).symm.trans hv)

theorem renameWithin (tidy : t.Tidy p) (source target : Handle) (hs : List Handle) :
    (t.renameWithin source target hs).Tidy p := by
  intro h v hv
  rw [get?_renameWithin] at hv
  obtain ⟨u, hu, rfl⟩ := Option.map_eq_some_iff.mp hv
  split
  · exact (tidy h u hu).mapRange _
  · exact tidy h u hu

end Table.Tidy

/-- What the folder gives for an instruction goes by the operands: it names what they name, and nothing
in it looks like a temporary when nothing in them does. -/
structure Folder.Tidy (folder : Folder) : Prop where
  names : folder.NamesOperands
  plain : ∀ (t : Table) (i : Instruction) (e : ScalarText),
    (∀ h ∈ i.inputs, t.Speaks (fun _ => False) h) → folder t i = .ok (some e) → isPlain e.text

namespace Folder

theorem tidy_declining : Tidy declining := ⟨fun _ _ _ _ _ => nofun, fun _ _ _ _ => nofun⟩

theorem tidy_refusing : Tidy refusing := ⟨fun _ _ _ _ _ => nofun, fun _ _ _ _ => nofun⟩

/-- Folding by running gives numbers. -/
theorem tidy_machine : Tidy Machine.fold := by
  have number {t : Table} {i : Instruction} {e : ScalarText} (folded : Machine.fold t i = .ok (some e)) :
      ∃ x, Machine.literal? x = some e := by
    obtain ⟨task, -, rest⟩ := Grammar.bind_eq_ok.mp folded
    split at rest
    · obtain ⟨literals, -, rest⟩ := Grammar.bind_eq_ok.mp rest
      split at rest
      · obtain ⟨effect, -, rest⟩ := Grammar.bind_eq_ok.mp rest
        exact ⟨effect.value, Except.ok.inj rest⟩
      · cases rest
    · cases rest
  refine ⟨fun p t i e _ folded => ?_, fun t i e _ folded => ?_⟩
  · obtain ⟨x, literal⟩ := number folded
    obtain ⟨negative, digits, text, numeric⟩ := Machine.literal?_text literal
    exact text ▸ .of_lists (.signed negative numeric) (by simp)
  · obtain ⟨x, literal⟩ := number folded
    obtain ⟨negative, digits, text, numeric⟩ := Machine.literal?_text literal
    exact (Identifier.isPlain_iff _).mpr (text ▸ .signed negative numeric)

theorem tidy_writer {w : Writer} {kernels : List String} (path : Grammar.IsPath w.kernels kernels)
    (plain : isPlain w.kernels) : Tidy w.fold :=
  ⟨w.namesOperands_fold path, fun _ _ _ speaks folded => (Identifier.isPlain_iff _).mpr
    (Writer.cites_fold (.of_isPlain plain) speaks folded)⟩

end Folder

namespace Folding

theorem areKnown_eq_true {policy : Policy} {t : Table} {hs : List Handle}
    (known : areKnown policy t hs = .ok true) : ∀ h ∈ hs, ∃ v, t.get? h = some v ∧ policy.knows v := by
  induction hs with
  | nil => simp
  | cons h hs ih =>
      obtain ⟨v, fetched, rest⟩ := Grammar.bind_eq_ok.mp known
      have hv := givesOnly_fetch t h v fetched
      split at rest
      · next knows => exact List.forall_mem_cons.mpr ⟨⟨v, hv, knows⟩, ih rest⟩
      · cases rest

/-- The operands of an instruction that is folded are known. -/
theorem known_of_step {policy : Policy} {folder : Folder} {t : Table} {i : Instruction} {h : Handle}
    {e : ScalarText} (folded : step policy folder t i = .ok (some (h, e))) :
    (∀ k ∈ i.inputs, ∃ v, t.get? k = some v ∧ policy.knows v) ∧
      expression? folder t i = .ok (some e) := by
  obtain ⟨candidate, found, rest⟩ := Grammar.bind_eq_ok.mp folded
  split at rest
  · next output =>
      obtain ⟨text, expression, same⟩ := Grammar.bind_eq_ok.mp rest
      obtain ⟨e', rfl, pair⟩ := Option.map_eq_some_iff.mp (Except.ok.inj same)
      obtain ⟨-, rfl⟩ := Prod.mk.inj pair
      refine ⟨?_, expression⟩
      unfold candidate? at found
      split at found
      · obtain ⟨v, -, found⟩ := Grammar.bind_eq_ok.mp found
        split at found
        · obtain ⟨known, all, found⟩ := Grammar.bind_eq_ok.mp found
          cases known with
          | true => exact areKnown_eq_true all
          | false => cases found
        · cases found
      · cases found
  · cases rest

end Folding

/-- The text of a folded instruction is put together from texts of operands that are known. -/
theorem Table.Tidy.text {p : String → Prop} {t : Table} (tidy : t.Tidy p) {folder : Folder}
    (folds : folder.Tidy) {h : Handle} {e : ScalarText} (turns : Folding.Turns folder t h e) :
    NamesOnly p e.text ∧ isPlain e.text := by
  obtain ⟨policy, i, folded⟩ := turns
  obtain ⟨known, written⟩ := Folding.known_of_step folded
  have operand : ∀ k ∈ i.inputs, ∃ v, t.get? k = some v ∧ isPlain v.name ∧ NamesOnly p v.operand := by
    intro k hk
    obtain ⟨v, hv, knows⟩ := known k hk
    obtain ⟨user, scalar⟩ := Policy.user_of_knows (tidy k v hv).fresh knows
    exact ⟨v, hv, (tidy k v hv).plain user, (tidy k v hv).names user scalar⟩
  constructor
  · exact folds.names.expression?
      (fun k hk => (operand k hk).imp fun v ⟨hv, _, names⟩ => ⟨hv, names⟩) written
  · obtain folded | ⟨⟨n, rfl⟩, -⟩ := Folding.cases_expression? written
    · refine folds.plain _ i e (fun k hk u hu => ?_) folded
      obtain ⟨v, hv, plain, -⟩ := operand k hk
      obtain rfl := Option.some.inj (hv.symm.trans hu)
      exact .of_isPlain plain
    · exact (Identifier.isPlain_iff _).mpr (.word n)

/-- A step of the optimizer puts texts together, or renames inside ranges. -/
theorem Draft.Step.tidy {folder : Folder} (folds : folder.Tidy) {d d' : Draft}
    (step : Step folder d d') {p : String → Prop} (tidy : d.workspace.table.Tidy p) :
    d'.workspace.table.Tidy p := by
  cases step with
  | fold h e turns =>
      obtain ⟨names, plain⟩ := tidy.text folds turns
      intro k v hv
      simp only [Workspace.fold, Table.get?_modify, Workspace.table_release] at hv
      split at hv
      · obtain ⟨u, -, rfl⟩ := Option.map_eq_some_iff.mp hv
        exact u.tidy_foldInto names plain e.precedence
      · exact tidy k v hv
  | restrict q kept => exact tidy
  | replace hs ht =>
      rw [Draft.table_replace]
      exact tidy.renameWithin _ _ _

theorem Draft.Extended.tidy {d d' : Draft} (extended : d.Extended d') {p : String → Prop}
    (tidy : d.workspace.table.Tidy p) : d'.workspace.table.Tidy p := by
  cases extended with
  | failed made | pushed made fits o => exact tidy.made made

/-- What work on an equation leaves: the same variables of the user, in a table that is still tidy. -/
structure Equation.Tidies (p : String → Prop) (e e' : Equation) : Prop where
  aliases : e'.context.aliases = e.context.aliases
  table : e.context.table.Tidy p → e'.context.table.Tidy p

namespace Compilation

open Equation (Tidies)

variable {p : String → Prop}

theorem tidies_values {α : Type} (x : Execution α) : StepsBy (Tidies p) (executing x) :=
  fun _ => .single ⟨rfl, id⟩

theorem tidies_extending {α : Type} {x : Drafting α}
    (extended : ∀ d : Draft, d.Extended (x.run.run d).2) : StepsBy (Tidies p) (drafting x) := by
  intro e
  rw [run_drafting]
  exact .single ⟨rfl, (extended e.draft).tidy⟩

theorem tidies_optimize (policy : Policy) {folder : Folder} (folds : folder.Tidy) :
    StepsBy (Tidies p) (drafting (.optimize policy folder)) := by
  intro e
  rw [run_drafting]
  refine .single ⟨rfl, fun tidy => ?_⟩
  exact (Drafting.stepsBy_optimize policy folder).keeps (p := fun d => d.workspace.table.Tidy p)
    (fun _ _ step => step.tidy folds) (s := e.draft) tidy

theorem tidies_optimizeWhen (enabled : Bool) (policy : Policy) {folder : Folder}
    (folds : folder.Tidy) : StepsBy (Tidies p) (optimizeWhen enabled policy folder) := by
  cases enabled with
  | true => exact (tidies_optimize policy folds).bind fun _ => stepsBy_pure _
  | false => exact stepsBy_pure _

theorem tidies_forget (hs : List Handle) : StepsBy (Tidies p) (forget hs) :=
  fun _ => .single ⟨rfl, id⟩

theorem tidies_execute (optimize : Bool) : StepsBy (Tidies p) (execute optimize) := by
  refine (tidies_optimizeWhen _ _ Folder.tidy_machine).bind fun _ => stepsBy_get.bind fun e => ?_
  refine (stepsBy_outcome _).bind fun hs => (tidies_values _).bind fun _ => ?_
  refine StepsBy.bind ?_ fun _ => (tidies_forget hs).bind fun _ => stepsBy_pure _
  exact StepsBy.tryCatch (tidies_values _) fun failure => (tidies_forget hs).bind fun _ =>
    stepsBy_outcome (.error failure)

theorem tidies_generate {options : Options} {kernels : List String}
    (path : Grammar.IsPath options.kernels kernels) (plain : isPlain options.kernels) :
    StepsBy (Tidies p) (generate options) := by
  refine stepsBy_get.bind fun e => ?_
  have folds : Folder.Tidy (Writer.mk options.kernels options.indent e.program.output).fold :=
    Folder.tidy_writer path plain
  refine (tidies_optimizeWhen _ _ folds).bind fun _ => stepsBy_get.bind fun _ => ?_
  exact (stepsBy_outcome _).bind fun _ => (stepsBy_outcome _).bind fun _ =>
    (stepsBy_outcome _).bind fun _ => stepsBy_pure _

theorem tidies_generateFunction (name : String) {options : Options} {kernels : List String}
    (path : Grammar.IsPath options.kernels kernels) (plain : isPlain options.kernels) :
    StepsBy (Tidies p) (generateFunction name options) :=
  (tidies_generate path plain).bind fun _ => stepsBy_get.bind fun _ =>
    (stepsBy_mapM (fun _ => stepsBy_outcome _) _).bind fun _ => stepsBy_pure _

theorem tidies_release : StepsBy (Tidies p) release := by
  intro e
  rw [release, run_get_bind, ExceptT.run_bind, StateT.run_bind, run_outcome, Context.releaseTemporaries]
  cases e.program.temporaries e.context.table with
  | error failure => exact .refl
  | ok hs =>
      refine .single ⟨rfl, fun tidy => ?_⟩
      exact List.foldlRecOn (motive := fun w => w.table.Tidy p) hs Workspace.release tidy
        fun w kept h _ => by rwa [Workspace.table_release]

end Compilation

namespace Context

/-- What a text may name: the variables of the user. Words for numbers are not names. -/
def Names (c : Context) (word : String) : Prop :=
  word ∈ c.aliases.map Prod.fst ∨ word ∈ NumberText.nonFinite

/-- The names of the user are apart from those of temporaries, and texts go by them. -/
structure Tidy (c : Context) : Prop where
  aliases : ∀ name ∈ c.aliases.map Prod.fst, Ordinary name
  table : c.table.Tidy c.Names

namespace Tidy

variable {c c' : Context} {name : String} {h : Handle}

/-- What a text may name is not the name of a temporary. -/
theorem isTemporaryName_eq_false (tidy : c.Tidy) {word : String} (names : c.Names word) :
    Workspace.isTemporaryName word = false := by
  have numbers : ∀ word ∈ NumberText.nonFinite, Workspace.isTemporaryName word = false := by decide
  exact names.elim (fun listed => (tidy.aliases word listed).apart) (numbers word)

theorem declare (tidy : c.Tidy) (ordinary : Ordinary name) {kind : Kind}
    (declared : c.declare name kind = .ok (h, c')) : c'.Tidy := by
  obtain ⟨-, ⟨-, -, rfl⟩ | ⟨-, content, -, -, rfl⟩⟩ := declare_cases declared
  · exact tidy
  · have wider : ∀ word, c.Names word → word ∈ (c.aliases ++ [(name, h)]).map Prod.fst ∨
        word ∈ NumberText.nonFinite := fun word => by
      rw [List.map_append]
      exact Or.imp_left (List.mem_append_left _)
    constructor
    · rw [List.map_append]
      exact List.forall_mem_append.mpr ⟨tidy.aliases, by simpa using ordinary⟩
    · exact (tidy.table.mono wider).add (Variable.tidy_named ordinary (.inl (by simp)) content)

theorem withMachine (tidy : c.Tidy) (m : Machine) : Tidy { c with machine := m } :=
  ⟨tidy.aliases, tidy.table⟩

theorem bind (tidy : c.Tidy) (ordinary : Ordinary name) {value : Value}
    (bound : c.bind name value = .ok (h, c')) : c'.Tidy := by
  obtain ⟨⟨k, c₁⟩, declared, same⟩ := Grammar.bind_eq_ok.mp bound
  obtain ⟨rfl, rfl⟩ := Prod.mk.inj (Except.ok.inj same)
  exact (tidy.declare ordinary declared).withMachine _

end Tidy
end Context

/-- The command calls variables by ordinary names, and texts that it leaves go by the operands. -/
def Command.Proper : Command → Prop
  | declare name _ | bind name _ => Ordinary name
  | optimize _ _ folder => folder.Tidy
  | generate _ options | generateFunction _ _ options =>
    (∃ kernels, Grammar.IsPath options.kernels kernels) ∧ isPlain options.kernels
  | _ => True

namespace Session

variable {s : Session}

theorem tidy_work {α : Type} (tidy : s.context.Tidy) (n : Nat) {x : Compilation α}
    (steps : StepsBy (Equation.Tidies s.context.Names) x) : (s.work n x).context.Tidy := by
  unfold work
  split
  · next p found =>
      obtain ⟨aliases, table⟩ := steps.keeps
        (p := fun e => e.context.aliases = s.context.aliases ∧ e.context.table.Tidy s.context.Names)
        (fun e e' step ⟨same, tidy⟩ => ⟨step.aliases.trans same, step.table tidy⟩)
        (s := ⟨s.context, p⟩) ⟨rfl, tidy.table⟩
      refine ⟨aliases ▸ tidy.aliases, ?_⟩
      exact table.mono fun word => by rw [Context.Names, Context.Names, aliases]; exact id
  · exact tidy

theorem tidy_enter (tidy : s.context.Tidy) {f : Table → Handle × Table}
    (table : (f s.context.table).2.Tidy s.context.Names) : (s.enter f).context.Tidy :=
  ⟨tidy.aliases, table⟩

theorem tidy_perform (tidy : s.context.Tidy) {command : Command} (proper : command.Proper) :
    (s.perform command).context.Tidy := by
  cases command with
  | declare name kind =>
      simp only [perform, change]
      split
      · next declared => exact tidy.declare proper declared
      · exact tidy
  | bind name value =>
      simp only [perform, change]
      split
      · next bound => exact tidy.bind proper bound
      · exact tidy
  | reseed seed =>
      rw [perform, Context.reseed]
      exact tidy.withMachine _
  | begin => exact tidy
  | integer value => exact tidy_enter (f := (·.integer value)) tidy (tidy.table.integer value)
  | double value =>
      exact tidy_enter (f := (·.double value)) tidy (tidy.table.double (fun _ => .inr) value)
  | sequence range => exact tidy_enter (f := (·.sequence range)) tidy (tidy.table.sequence range)
  | request n r => exact tidy_work tidy n (Compilation.tidies_extending (Drafting.extended_apply r))
  | assign n source target =>
      exact tidy_work tidy n (Compilation.tidies_extending (Drafting.extended_assign source target))
  | assignRange n source target range =>
      exact tidy_work tidy n
        (Compilation.tidies_extending (Drafting.extended_assignRange source target range))
  | optimize n policy folder => exact tidy_work tidy n (Compilation.tidies_optimize policy proper)
  | execute n optimize => exact tidy_work tidy n (Compilation.tidies_execute optimize)
  | generate n options =>
      obtain ⟨⟨kernels, path⟩, plain⟩ := proper
      exact tidy_work tidy n (Compilation.tidies_generate path plain)
  | generateFunction n name options =>
      obtain ⟨⟨kernels, path⟩, plain⟩ := proper
      exact tidy_work tidy n (Compilation.tidies_generateFunction name path plain)
  | release n => exact tidy_work tidy n Compilation.tidies_release

theorem tidy_initial : initial.context.Tidy where
  aliases := by simp [initial, Context.initial]
  table := by
    have empty : Table.Tidy initial.context.Names ⟨#[], []⟩ := fun h v hv => by simp [Table.get?] at hv
    exact (empty.integer 0).integer 1

/-- Whatever proper commands do in a session, the context is tidy. -/
theorem tidy_run {commands : List Command} (proper : ∀ command ∈ commands, command.Proper) :
    (run commands).context.Tidy :=
  List.foldlRecOn (motive := fun s => s.context.Tidy) commands perform tidy_initial
    fun _ tidy command member => tidy_perform tidy (proper command member)

end Session
end MatrixCode
