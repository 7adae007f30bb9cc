import MatrixCode.Proofs.Backends
import MatrixCode.Proofs.Packing
import MatrixCode.Proofs.StatementWords
import MatrixCode.Proofs.Tidiness

/-!
Scopes in written programs. A program declares the temporaries that it mentions, each once; it reads
a temporary only after it has written it; and the texts that instructions were folded into name no
temporary. All of this holds with and without the optimizer, which takes temporaries away and renames
them but makes none. The texts name variables of the user, as long as no number is infinite or undefined:
such a number is written as a word, which is a name of nothing.
-/

namespace MatrixCode

namespace Writer

/-- The line that declares a temporary. -/
def declarationLine (kernels indent : String) (t : Table) (h : Handle) : String :=
  match t.get? h with
  | none => ""
  | some v =>
    let initial := match v.kind with
      | .integer => ": i64 = 0"
      | .double => ": f64 = 0.0"
      | .matrix | .sequence => " = " ++ (kernels ++ "::" ++ "Matrix::zeros") ++ "(0, 0)"
    indent ++ "let mut " ++ v.name ++ initial ++ ";\n"

variable {w : Writer} {t : Table}

theorem yields_declaration {h : Handle} {v : Variable} (hv : t.get? h = some v)
    (temporary : v.temporary = true) (plain : v.kind ≠ .sequence) (indent s : String) :
    Yields (w.declaration t indent h) s () (s ++ declarationLine w.kernels indent t h) := by
  have found : t.lookup h = .ok v := by simp [Table.lookup, hv]
  have looked : Yields (t.lookup h : Emission Variable) s v s := by
    rw [Yields, found]
    rfl
  refine looked.bind ?_
  rw [if_pos temporary]
  cases kind : v.kind with
  | integer | double | matrix =>
      simp only [declarationLine, hv, kind, path, ← String.append_assoc]
      rfl
  | sequence => exact absurd kind plain

theorem yields_declarations {hs : List Handle}
    (each : ∀ h ∈ hs, ∃ v, t.get? h = some v ∧ v.temporary = true ∧ v.kind ≠ .sequence)
    (indent s : String) : Yields (hs.forM (w.declaration t indent)) s ()
      (s ++ String.join (hs.map (declarationLine w.kernels indent t))) := by
  induction hs generalizing s with
  | nil =>
      rw [List.map_nil, String.join_nil, String.append_empty]
      rfl
  | cons h hs ih =>
      obtain ⟨⟨v, hv, temporary, plain⟩, others⟩ := List.forall_mem_cons.mp each
      refine (yields_declaration hv temporary plain indent s).bind ?_
      rw [List.map_cons, String.join_cons, ← String.append_assoc]
      exact ih others _

end Writer

/-- The table has no temporaries but those of another one, under their names. -/
def Table.TemporariesFrom (t t' : Table) : Prop :=
  ∀ h v', t'.get? h = some v' → v'.temporary = true →
    ∃ v, t.get? h = some v ∧ v.temporary = true ∧ v.name = v'.name ∧ v.kind = v'.kind

section Mentions

variable {d d' : Draft}

/-- Sharing is among temporaries. -/
theorem Draft.Shared.mem_mentions (s : Shared d d') {k : Handle} (user : d.IsUser k)
    (hk : k ∈ d'.program.mentions d'.workspace.table) : k ∈ d.program.mentions d.workspace.table := by
  induction s with
  | refl d => exact hk
  | step f first rest ih =>
      have later := ih ((first.renamed.isUser k).mpr user) hk
      obtain ⟨h, hh, rfl⟩ := (first.renamed.mem_mentions_iff first.merges.keeps).mp later
      rwa [first.fixed h (first.within h user)]

/-- Without its final copy, the program still mentions the target. -/
theorem Draft.Assigning.mem_mentions_drop {body : List Instruction} {last : Instruction}
    {source target : Handle} (a : d.Assigning body last target)
    (ends : d.program.EndsInCopy d.workspace.table body last source target) {k : Handle}
    (hk : k ∈ (d.dropTrailingCopy source target).program.mentions
      (d.dropTrailingCopy source target).workspace.table) :
    k ∈ d.program.mentions d.workspace.table := by
  have copies := a.copies_of_endsInCopy ends
  have keeps : Table.Keeps (Handle.replace source target) d.withoutLast.workspace.table :=
    .replace ends.kind copies.kind_source
  obtain ⟨h, hh, rfl⟩ := ((renamedBy_drop copies).mem_mentions_iff keeps).mp hk
  have listed : ∀ i, i ∈ d.program.instructions ↔ i ∈ body ∨ i = last := by simp [a.split]
  by_cases same : h = source
  · rw [Handle.replace, if_pos same]
    exact List.mem_flatMap.mpr ⟨last, (listed last).mpr (.inr rfl),
      Instruction.mem_mentions_of_output ends.output⟩
  · rw [Handle.replace, if_neg same]
    obtain ⟨i, hi, hh⟩ := List.mem_flatMap.mp hh
    exact List.mem_flatMap.mpr ⟨i, List.dropLast_subset _ hi, hh⟩

/-- The optimizer lets a program mention no other variables of the user. -/
theorem Draft.SingleEquation.mem_mentions_of_optimize {body : List Instruction} {last : Instruction}
    {target : Handle} (single : d.SingleEquation body last target) {policy : Policy} {folder : Folder}
    {report : Report} (ran : Yields (Drafting.optimize policy folder) d report d') {k : Handle}
    (user : d'.IsUser k) (hk : k ∈ d'.program.mentions d'.workspace.table) :
    k ∈ d.program.mentions d.workspace.table := by
  obtain ⟨body', shortens, assigning, passed⟩ := single.passes_of_optimize ran
  have before (h : Handle) (hh : h ∈ (d.foldedBy policy folder).program.mentions
      (d.foldedBy policy folder).workspace.table) : h ∈ d.program.mentions d.workspace.table := by
    obtain ⟨i, hi, hh⟩ := List.mem_flatMap.mp hh
    rw [assigning.split] at hi
    rw [Instruction.mentions, Instruction.sources_congr shortens.content?] at hh
    have kept := (shortens.sublist.append_right [last]).subset hi
    exact List.mem_flatMap.mpr ⟨i, single.split ▸ kept, hh⟩
  obtain shared | ⟨source, ends, shared⟩ := passed
  · exact before k (shared.mem_mentions ((shared.isUser k).mp user) hk)
  · exact before k (assigning.mem_mentions_drop ends
      (shared.mem_mentions ((shared.isUser k).mp user) hk))

end Mentions

/-- The text of a scalar that the program mentions names the word. -/
def Draft.NamesWord (d : Draft) (word : String) : Prop :=
  ∃ h ∈ d.program.mentions d.workspace.table, ∃ v, d.workspace.table.get? h = some v ∧
    v.temporary = false ∧ v.kind.isScalar ∧ word ∈ Identifier.free v.operand

namespace Draft.SingleEquation

variable {d d' : Draft} {body : List Instruction} {last : Instruction} {target : Handle}
  (single : d.SingleEquation body last target) {policy : Policy} {folder : Folder} {report : Report}
  (ran : Yields (Drafting.optimize policy folder) d report d')

include single ran

/-- The optimizer makes no temporaries. -/
theorem temporariesFrom_of_optimize : d.workspace.table.TemporariesFrom d'.workspace.table := by
  obtain ⟨body', shortens, -, texts⟩ := single.sound_of_optimize ran
  intro h v' hv' temporary
  obtain ⟨v, f, hv, rfl⟩ := texts.exists_of_get? hv'
  rw [Variable.temporary_mapRange] at temporary
  rw [shortens.get?_of_isTemporary ⟨v, hv, temporary⟩] at hv
  exact ⟨v, hv, temporary, by simp, (v.kind_mapRange f).symm⟩

/-- What is folded by going by the operands names what was named before. -/
theorem namesWithin_of_optimize (operands : folder.NamesOperands) {p : String → Prop}
    (within : d.workspace.table.NamesWithin (· ∈ d.program.mentions d.workspace.table) fun _ => p) :
    d'.workspace.table.NamesWithin (· ∈ d.program.mentions d.workspace.table) fun _ => p := by
  obtain ⟨body', shortens, -, texts⟩ := single.sound_of_optimize ran
  have listed {i : Instruction} (hi : i ∈ body) : i ∈ d.program.instructions := by
    simp [single.split, hi]
  have folded := shortens.namesWithin operands
    (fun i hi k hk => List.mem_flatMap.mpr ⟨i, listed hi,
      Instruction.mem_mentions_of_mem_sources (Instruction.mem_sources_of_mem_inputs hk)⟩)
    (fun _ _ _ _ _ _ _ _ => id)
    (fun i hi k hk v => single.constant_eq_false (listed hi)
      (Instruction.mem_sources_of_mem_inputs hk)) within
  intro h v' hh hv' user scalar
  obtain ⟨v, f, hv, rfl⟩ := texts.exists_of_get? hv'
  rw [Variable.temporary_mapRange] at user
  rw [Variable.kind_mapRange] at scalar
  rw [Variable.operand_mapRange]
  exact folded h v hh hv user scalar

/-- What the texts of an optimized program name they named before. -/
theorem namesWord_of_optimize (operands : folder.NamesOperands) {p : String → Prop}
    (tidy : d.workspace.table.Tidy p) {word : String} (said : d'.NamesWord word) : d.NamesWord word := by
  obtain ⟨h, mentioned, v, hv, user, scalar, hw⟩ := said
  have isUser : d'.IsUser h := by
    rintro ⟨u, hu, temporary⟩
    obtain rfl := Option.some.inj (hu.symm.trans hv)
    simp [user] at temporary
  have within : d.workspace.table.NamesWithin (· ∈ d.program.mentions d.workspace.table)
      fun _ => d.NamesWord := fun k u hk hu user scalar =>
    ⟨fun word hw => ⟨k, hk, u, hu, user, scalar, hw⟩, ((tidy k u hu).names user scalar).line⟩
  have named := single.namesWithin_of_optimize ran operands within
  exact (named h v (single.mem_mentions_of_optimize ran isUser mentioned) hv user scalar).free word hw

end Draft.SingleEquation

namespace Compilation

/-- A written program is one that was optimized, if asked to, and then listed. -/
theorem of_generate {options : Options} {e e' : Equation} {code : Generated}
    (ran : Yields (generate options) e code e') :
    ∃ (w : Writer) (report : Option Report) (hs : List Handle), w.kernels = options.kernels ∧
      w.indent = options.indent ∧
      Yields (optimizeWhen options.optimize options.policy w.fold) e report e' ∧
      (e'.program.temporaries e'.context.table).toOption = some hs ∧
      (Writer.textOf (hs.forM (w.declaration e'.context.table options.indent))).toOption =
        some code.header ∧
      w.body e'.context.table e'.program = .ok code.body := by
  obtain ⟨_, _, got, ran⟩ := ran.of_bind
  cases got
  obtain ⟨report, e₁, optimized, ran⟩ := ran.of_bind
  obtain ⟨_, _, got, ran⟩ := ran.of_bind
  cases got
  obtain ⟨hs, e₂, listed, ran⟩ := ran.of_bind
  rw [Yields, run_outcome] at listed
  obtain ⟨found, rfl⟩ := Prod.mk.inj listed
  obtain ⟨header, e₃, declared, ran⟩ := ran.of_bind
  rw [Yields, run_outcome] at declared
  obtain ⟨lines, rfl⟩ := Prod.mk.inj declared
  obtain ⟨body, e₄, written, ran⟩ := ran.of_bind
  rw [Yields, run_outcome] at written
  obtain ⟨text, rfl⟩ := Prod.mk.inj written
  cases ran
  exact ⟨_, report, hs, rfl, rfl, optimized, Outcome.toOption_eq_some.mpr found,
    Outcome.toOption_eq_some.mpr lines, text⟩

/-- The code is the text of a program whose names are in scope. -/
structure WellScoped (options : Options) (e : Equation) (code : Generated) : Prop where
  /-- Exactly the temporaries that the program mentions are declared, each in one line. -/
  declared : ∃ hs : List Handle, hs.Nodup ∧
    (∀ h, h ∈ hs ↔ e.context.table.IsTemporary h ∧ h ∈ e.program.mentions e.context.table) ∧
    code.header =
      String.join (hs.map (Writer.declarationLine options.kernels options.indent e.context.table))
  /-- The lines declare different names. -/
  distinct : ∀ h k u v, e.context.table.get? h = some u → e.context.table.get? k = some v →
    u.temporary = true → v.temporary = true → u.name = v.name → h = k
  /-- A temporary is read after it was written: as an operand, as an item or inside a range. -/
  written : ∀ done i rest, e.program.instructions = done ++ i :: rest →
    ∀ k ∈ i.sources e.context.table, e.context.table.IsTemporary k → k ∈ Instruction.outputs done
  /-- The texts of other scalars name variables of the user, or numbers that are not finite, and no
  temporary. -/
  named : ∀ word, e.draft.NamesWord word → e.context.Names word ∧
    ∀ h u, e.context.table.get? h = some u → u.temporary = true → u.name ≠ word
  /-- A word of the body that looks like a temporary is one that is declared, unless it comes from
  the indentation or the path of the kernels. -/
  worded : (∀ c ∈ options.indent.toList, Identifier.isPart c = false) →
    Identifier.isPlain options.kernels →
    ∀ word ∈ Identifier.words code.body, Workspace.isTemporaryName word →
      ∃ h ∈ e.program.mentions e.context.table, ∃ v, e.context.table.get? h = some v ∧
        v.temporary = true ∧ v.name = word

/-- What a written program mentions is spelled by its name, and only temporaries look like them. -/
theorem worded_of_generate {options : Options} {e e' : Equation} {code : Generated}
    (tidy : e.context.Tidy) {kernels : List String} (path : Grammar.IsPath options.kernels kernels)
    (ran : Yields (generate options) e code e')
    (named : ∀ h v, e'.context.table.get? h = some v → v.temporary = true →
      Identifier.words v.name = [v.name])
    (blank : ∀ c ∈ options.indent.toList, Identifier.isPart c = false)
    (plain : Identifier.isPlain options.kernels) :
    Identifier.Cites (fun word => ∃ h ∈ e'.program.mentions e'.context.table, ∃ v,
      e'.context.table.get? h = some v ∧ v.temporary = true ∧ v.name = word) code.body := by
  obtain ⟨w, -, -, library, indent, -, -, -, written⟩ := of_generate ran
  have after : e'.context.table.Tidy e.context.Names := by
    have kept := (tidies_generate path plain).keeps
      (p := fun e' => e'.context.table.Tidy e.context.Names)
      (fun _ _ step => step.table) tidy.table
    rwa [ran] at kept
  refine Writer.cites_body (library ▸ .of_isPlain plain) (indent ▸ blank) (fun h hh v hv => ?_) _ written
  cases temporary : v.temporary with
  | true => exact .of_words (named h v hv temporary) fun _ => ⟨h, hh, v, hv, temporary, rfl⟩
  | false => exact .of_isPlain ((after h v hv).plain temporary)

/-- What the texts of a written program name they named before. -/
theorem namesWord_of_generate {options : Options} {e e' : Equation} {code : Generated}
    {body : List Instruction} {last : Instruction} {target : Handle} {kernels : List String}
    (tidy : e.context.Tidy) (single : e.draft.SingleEquation body last target)
    (path : Grammar.IsPath options.kernels kernels) (ran : Yields (generate options) e code e')
    {word : String} (said : e'.draft.NamesWord word) : e.draft.NamesWord word := by
  obtain ⟨w, report, -, same, -, optimized, -⟩ := of_generate ran
  rw [← same] at path
  cases enabled : options.optimize with
  | false =>
      rw [enabled] at optimized
      cases optimized
      exact said
  | true =>
      rw [enabled] at optimized
      obtain ⟨_, d, drafted, rfl⟩ := of_yields_optimizeWhen optimized
      exact single.namesWord_of_optimize drafted (w.namesOperands_fold path) tidy.table said

/-- Writing an equation gives code whose names are in scope, whatever is optimized. -/
theorem wellScoped_of_generate {options : Options} {e e' : Equation} {code : Generated}
    {body : List Instruction} {last : Instruction} {target : Handle} {kernels : List String}
    (books : e.context.workspace.Balanced) (tidy : e.context.Tidy)
    (single : e.draft.SingleEquation body last target)
    (path : Grammar.IsPath options.kernels kernels) (ran : Yields (generate options) e code e') :
    WellScoped options e' code := by
  obtain ⟨w, report, hs, same, -, optimized, listed, header, -⟩ := of_generate ran
  obtain ⟨covered, mentioned⟩ := Program.temporaries_spec listed
  obtain ⟨sound, old, aliases⟩ : e'.draft.Sound ∧
      e.context.table.TemporariesFrom e'.context.table ∧
      e'.context.aliases = e.context.aliases := by
    cases enabled : options.optimize with
    | false =>
        rw [enabled] at optimized
        cases optimized
        exact ⟨single.sound covered, fun h v hv temporary => ⟨v, hv, temporary, rfl, rfl⟩, rfl⟩
    | true =>
        rw [enabled] at optimized
        obtain ⟨_, d, drafted, rfl⟩ := of_yields_optimizeWhen optimized
        obtain ⟨-, -, sound, -⟩ := single.sound_of_optimize drafted
        exact ⟨sound, single.temporariesFrom_of_optimize drafted, rfl⟩
  have numbered {h : Handle} {u : Variable} (hu : e'.context.table.get? h = some u)
      (temporary : u.temporary = true) : ∃ kind n, u.name = Workspace.temporaryName kind n := by
    obtain ⟨v, hv, temporary, name, -⟩ := old h u hu temporary
    obtain ⟨n, -, numbered⟩ := books.named h v hv temporary
    exact ⟨v.kind, n, name ▸ numbered⟩
  refine ⟨⟨hs, Program.nodup_temporaries listed, fun h => (mentioned h).trans and_comm, ?_⟩, ?_, ?_, ?_,
    worded_of_generate tidy path ran fun h v hv temporary => ?_⟩
  · have each : ∀ h ∈ hs, ∃ v, e'.context.table.get? h = some v ∧ v.temporary = true ∧
        v.kind ≠ .sequence := by
      intro h hh
      obtain ⟨-, v', hv', temporary'⟩ := (mentioned h).mp hh
      obtain ⟨v, hv, temporary, -, kind⟩ := old h v' hv' temporary'
      exact ⟨v', hv', temporary', kind ▸ books.kind_ne_sequence hv temporary⟩
    have lines := Writer.yields_declarations (w := w) each options.indent ""
    rw [Writer.textOf, lines] at header
    simpa [same] using header.symm
  · intro h k u' v' hu' hv' tu' tv' alike
    obtain ⟨u, hu, tu, nameU, -⟩ := old h u' hu' tu'
    obtain ⟨v, hv, tv, nameV, -⟩ := old k v' hv' tv'
    exact books.distinct h k u v hu hv tu tv (by rw [nameU, nameV, alike])
  · intro done i rest split k hk temporary
    by_contra unwritten
    refine sound.opened k temporary ?_
    rw [show e'.draft.program.instructions = _ from split]
    exact Live.of_notMem_outputs unwritten (.inl (Instruction.mem_uses_of_mem_sources hk))
  · intro word said
    obtain ⟨k, -, v, hv, user, scalar, hw⟩ := namesWord_of_generate tidy single path ran said
    have names : e.context.Names word := ((tidy.table k v hv).names user scalar).free word hw
    refine ⟨by rwa [Context.Names, aliases], fun h u hu temporary called => ?_⟩
    obtain ⟨kind, n, name⟩ := numbered hu temporary
    have other := tidy.isTemporaryName_eq_false names
    rw [← called, name, Workspace.isTemporaryName_temporaryName] at other
    cases other
  · obtain ⟨kind, n, name⟩ := numbered hv temporary
    exact Identifier.words_of_isTemporaryName (name ▸ Workspace.isTemporaryName_temporaryName kind n)

end Compilation

/-- In a session in which the user calls variables by ordinary names, writing an equation gives code
whose names are in scope. When no text in the equation has a word for a number that is not finite, every
text in the code names variables of the user only. -/
theorem Session.wellScoped_generate {commands : List Command}
    (proper : ∀ command ∈ commands, command.Proper) {p : Program} {m : Machine}
    {body : List Instruction} {last : Instruction} {target : Handle}
    (single : ((run commands).equation p m).draft.SingleEquation body last target)
    {options : Options} {kernels : List String} (path : Grammar.IsPath options.kernels kernels)
    {code : Generated} {e' : Equation}
    (ran : Yields (Compilation.generate options) ((run commands).equation p m) code e') :
    Compilation.WellScoped options e' code ∧
      ((∀ word ∈ NumberText.nonFinite, ((run commands).equation p m).draft.NamesWord word →
          word ∈ (run commands).context.aliases.map Prod.fst) →
        ∀ word, e'.draft.NamesWord word → word ∈ (run commands).context.aliases.map Prod.fst) := by
  have tidy : ((run commands).equation p m).context.Tidy := (tidy_run proper).withMachine m
  refine ⟨Compilation.wellScoped_of_generate (consistent_run commands).books tidy single path ran,
    fun finite word said => ?_⟩
  have before := Compilation.namesWord_of_generate tidy single path ran said
  have ⟨k, _, v, hv, user, scalar, hw⟩ := before
  obtain listed | number := ((tidy.table k v hv).names user scalar).free word hw
  · exact listed
  · exact finite word number before

/-- The equation `d = trace (a * -d)`, in a double and a matrix of the user. -/
def Drafting.rescaling : Drafting Unit := do
  let negated ← apply (Request.unary .negate ⟨2⟩).perform
  let product ← apply (Request.binary .multiply ⟨3⟩ negated).perform
  let trace ← apply (Request.unary .trace product).perform
  assign trace ⟨2⟩

/-- The same in a session. -/
def Session.rescaling : List Command :=
  [.declare "d" .double, .declare "a" .matrix, .begin, .request 0 (.unary .negate ⟨2⟩),
    .request 0 (.binary .multiply ⟨3⟩ ⟨4⟩), .request 0 (.unary .trace ⟨5⟩), .assign 0 ⟨6⟩ ⟨2⟩]

/-- The draft of the equation. -/
def Draft.rescaling : Draft :=
  ofEquation .rescaling (Session.run (Session.rescaling.take 2)).context.workspace

theorem Draft.singleEquation_rescaling :
    ∃ body last, Draft.rescaling.SingleEquation body last ⟨2⟩ := by
  have ran : Yields Drafting.rescaling
      ⟨(Session.run (Session.rescaling.take 2)).context.workspace, .empty⟩ () Draft.rescaling :=
    yields_of_toOption (by decide +kernel)
  obtain ⟨_, _, first, ran⟩ := ran.of_bind
  obtain ⟨_, _, second, ran⟩ := ran.of_bind
  obtain ⟨_, _, third, assigned⟩ := ran.of_bind
  refine ⟨Draft.rescaling.program.instructions.dropLast, _,
    .assign (.request (.request (.request (.start _) _ _ first) _ _ second) _ _ third) _ _ assigned,
    (List.dropLast_append_getLast (by decide +kernel)).symm, ?_, ?_, ?_, ?_, forall_of_take ?_⟩
  all_goals decide +kernel

/-- The equation in the context of the session. -/
def Equation.rescaling : Equation :=
  (Session.run Session.rescaling).equation Draft.rescaling.program .initial

theorem Equation.draft_rescaling : Equation.rescaling.draft = Draft.rescaling := rfl

theorem Session.wellScoped_rescaling : ∃ code e',
    Yields (Compilation.generate .standard) Equation.rescaling code e' ∧
      Compilation.WellScoped .standard e' code ∧ ∀ word, e'.draft.NamesWord word → word ∈ ["d", "a"] := by
  obtain ⟨body, last, single⟩ := Draft.singleEquation_rescaling
  obtain ⟨code, ran⟩ := exists_yields (x := Compilation.generate .standard) (s := Equation.rescaling)
    (by decide +kernel)
  have proper : ∀ command ∈ Session.rescaling, command.Proper := by
    simp only [rescaling, List.forall_mem_cons, Command.Proper]
    exact ⟨by decide, by decide, trivial, trivial, trivial, trivial, trivial, nofun⟩
  have path : Grammar.IsPath Options.standard.kernels ["mateq", "kernels"] := by decide
  obtain ⟨inScope, named⟩ := wellScoped_generate proper (Equation.draft_rescaling ▸ single) path ran
  refine ⟨code, _, ran, inScope, named ?_⟩
  -- the only scalar is `d`
  have scalars : ∀ h ∈ Draft.rescaling.program.mentions Draft.rescaling.workspace.table,
      ∀ v ∈ Draft.rescaling.workspace.table.get? h, v.temporary = false → v.kind.isScalar →
        v.operand = "d" := by decide +kernel
  rintro word number ⟨h, mentioned, v, hv, user, scalar, hw⟩
  rw [scalars h mentioned v hv user scalar, Identifier.free_of_isName (by decide)] at hw
  obtain rfl : word = "d" := by simpa [Identifier.castWords] using hw
  exact absurd number (by decide)

/-- The equation `x = y + inf`, in two doubles of the user. -/
def Drafting.unbounded : Drafting Unit := do
  let sum ← apply (Request.binary .add ⟨2⟩ ⟨4⟩).perform
  assign sum ⟨3⟩

/-- The same in a session. -/
def Session.unbounded : List Command :=
  [.declare "y" .double, .declare "x" .double, .double (Binary.infinity false), .begin,
    .request 0 (.binary .add ⟨2⟩ ⟨4⟩), .assign 0 ⟨5⟩ ⟨3⟩]

/-- The draft of the equation. -/
def Draft.unbounded : Draft :=
  ofEquation .unbounded (Session.run (Session.unbounded.take 3)).context.workspace

theorem Draft.singleEquation_unbounded :
    ∃ body last, Draft.unbounded.SingleEquation body last ⟨3⟩ := by
  have ran : Yields Drafting.unbounded
      ⟨(Session.run (Session.unbounded.take 3)).context.workspace, .empty⟩ () Draft.unbounded :=
    yields_of_toOption (by decide +kernel)
  obtain ⟨_, _, first, assigned⟩ := ran.of_bind
  refine ⟨Draft.unbounded.program.instructions.dropLast, _,
    .assign (.request (.start _) _ _ first) _ _ assigned,
    (List.dropLast_append_getLast (by decide +kernel)).symm, ?_, ?_, ?_, ?_, forall_of_take ?_⟩
  all_goals decide +kernel

/-- The equation in the context of the session. -/
def Equation.unbounded : Equation :=
  (Session.run Session.unbounded).equation Draft.unbounded.program .initial

theorem Equation.draft_unbounded : Equation.unbounded.draft = Draft.unbounded := rfl

/-- The sum is folded into a text with the word for an infinite number, which is not a name of the
user. -/
theorem Session.names_unbounded : (∀ command ∈ Session.unbounded, command.Proper) ∧
    (∃ body last, Equation.unbounded.draft.SingleEquation body last ⟨3⟩) ∧
    ∃ code e', Yields (Compilation.generate .standard) Equation.unbounded code e' ∧
      code.body = "    *x = (y + inf);\n" ∧ e'.draft.NamesWord "inf" ∧
      "inf" ∉ (Session.run Session.unbounded).context.aliases.map Prod.fst := by
  have proper : ∀ command ∈ Session.unbounded, command.Proper := by
    simp only [unbounded, List.forall_mem_cons, Command.Proper]
    exact ⟨by decide, by decide, trivial, trivial, trivial, trivial, nofun⟩
  refine ⟨proper, Equation.draft_unbounded ▸ Draft.singleEquation_unbounded, ?_⟩
  have body : ((Compilation.generate .standard).run.run Equation.unbounded).1.toOption.any
      (·.body = "    *x = (y + inf);\n") := by decide +kernel
  obtain ⟨code, found, body⟩ := (Option.any_eq_true _ _).mp body
  let e' := ((Compilation.generate .standard).run.run Equation.unbounded).2
  have text : ∃ h ∈ e'.program.mentions e'.context.table, (e'.context.table.get? h).map
      (fun v => (v.temporary, v.kind, v.operand)) = some (false, .double, "y + inf") := by
    decide +kernel
  obtain ⟨h, mentioned, entry⟩ := text
  obtain ⟨v, hv, same⟩ := Option.map_eq_some_iff.mp entry
  obtain ⟨user, same⟩ := Prod.mk.inj same
  obtain ⟨kind, operand⟩ := Prod.mk.inj same
  refine ⟨code, e', yields_of_toOption found, by simpa using body,
    ⟨h, mentioned, v, hv, user, by rw [kind]; rfl, ?_⟩, by decide +kernel⟩
  rw [operand, show "y + inf" = "y" ++ " " ++ Grammar.Operation.add.sign ++ " " ++ "inf" from rfl,
    Identifier.free_between, Identifier.free_of_isName (by decide), Identifier.free_of_isName (by decide)]
  decide

end MatrixCode
