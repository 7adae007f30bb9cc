import MatrixCode.Proofs.Accounting
import MatrixCode.Proofs.Scoping

/-!
The names that a written function introduces. Its parameters are the variables of the user, and a
generator where random numbers are drawn; its first lines declare the temporaries. The user's names
differ from each other, and so do those of the temporaries. Nothing keeps the two apart: a variable
of the user may be called `tm0`, or `rng`. These are the only ways in which one name can hide another.
-/

namespace MatrixCode

/-- The parts of a written function. A parameter and a declared variable are a name, with the text
that follows it. -/
structure FunctionText where
  parameters : List (String × String)
  declared : List (String × String)
  body : String

namespace FunctionText

def parameterText (x : String × String) : String := x.1 ++ ": " ++ x.2

def declarationText (indent : String) (x : String × String) : String :=
  indent ++ "let mut " ++ x.1 ++ x.2 ++ ";\n"

def text (f : FunctionText) (name : String) (options : Options) : String :=
  "pub fn " ++ name ++ "(" ++ ", ".intercalate (f.parameters.map parameterText) ++
    ") -> Result<(), " ++ options.kernels ++ "::KernelError> \x7b\n" ++
    String.join (f.declared.map (declarationText options.indent)) ++ f.body ++
    options.indent ++ "Ok(())\n\x7d\n"

/-- The names that are introduced, those of the body before those of the parameters. -/
def names (f : FunctionText) : List String := f.declared.map Prod.fst ++ f.parameters.map Prod.fst

/-- No name is introduced twice. -/
def CaptureFree (f : FunctionText) : Prop := f.names.Nodup

instance (f : FunctionText) : Decidable f.CaptureFree := inferInstanceAs (Decidable f.names.Nodup)

end FunctionText

/-- A sequence of outcomes, as a computation that succeeds. -/
theorem yields_mapM_outcome {σ α β : Type} {f : β → Outcome α} {g : β → α} {bs : List β}
    (each : ∀ b ∈ bs, f b = .ok (g b)) (s : σ) :
    Yields (bs.mapM fun b => (f b : ExceptT Failure (StateM σ) α)) s (bs.map g) s := by
  induction bs with
  | nil => rfl
  | cons b bs ih =>
      obtain ⟨first, others⟩ := List.forall_mem_cons.mp each
      rw [List.mapM_cons, List.map_cons]
      refine (yields_outcome (a := g b) (by rw [first]; rfl) s).bind ?_
      exact (ih others).bind rfl

namespace Writer

/-- What a declaration says after the name. -/
def initialText (kernels : String) : Kind → String
  | .integer => ": i64 = 0"
  | .double => ": f64 = 0.0"
  | .matrix | .sequence => " = " ++ (kernels ++ "::" ++ "Matrix::zeros") ++ "(0, 0)"

/-- A temporary as it is declared. -/
def declared (kernels : String) (t : Table) (h : Handle) : String × String :=
  ((t.get? h).elim "" Variable.name, initialText kernels ((t.kind? h).getD .matrix))

theorem declarationLine_eq {t : Table} {h : Handle} {v : Variable} (hv : t.get? h = some v)
    (kernels indent : String) :
    declarationLine kernels indent t h = FunctionText.declarationText indent (declared kernels t h) := by
  simp only [declarationLine, declared, FunctionText.declarationText, hv, Table.kind?, Option.map_some,
    Option.getD_some, Option.elim]
  cases v.kind <;> rfl

end Writer

namespace Equation

/-- Some instruction draws random numbers. -/
def isRandom (e : Equation) : Bool := e.program.instructions.any (·.primitive.isRandom)

/-- The names that the user gave. -/
def userNames (e : Equation) : List String := e.context.aliases.map Prod.fst

/-- A variable of the user as a parameter. -/
def parameter (e : Equation) (kernels : String) (entry : String × Handle) : String × String :=
  (entry.1, ((e.context.table.kind? entry.2).bind
    (Compilation.parameterType? kernels (e.program.output = some entry.2))).getD "")

/-- The generator as a parameter, where there is one. -/
def generator (e : Equation) (kernels : String) : List (String × String) :=
  if e.isRandom then [("rng", "&mut " ++ kernels ++ "::MatrixRng")] else []

/-- The function of an equation that declares some temporaries. -/
def functionText (e : Equation) (options : Options) (hs : List Handle) (body : String) : FunctionText where
  parameters := e.context.aliases.map (e.parameter options.kernels) ++ e.generator options.kernels
  declared := hs.map (Writer.declared options.kernels e.context.table)
  body := body

variable {e : Equation}

theorem parameter?_eq (consistent : e.context.Consistent) {entry : String × Handle}
    (member : entry ∈ e.context.aliases) (kernels : String) :
    Compilation.parameter? e kernels entry =
      .ok (some (FunctionText.parameterText (e.parameter kernels entry))) := by
  obtain ⟨v, hv, -, plain⟩ := consistent.aliases entry member
  have kind : e.context.table.kind? entry.2 = some v.kind := by simp [Table.kind?, hv]
  obtain ⟨type, typed⟩ : ∃ type, Compilation.parameterType? kernels
      (e.program.output = some entry.2) v.kind = some type := by
    cases hk : v.kind with
    | sequence => exact absurd hk plain
    | integer | double | matrix => exact ⟨_, rfl⟩
  rw [Compilation.parameter?, Table.fetchKind_eq_ok kind]
  simp only [FunctionText.parameterText, parameter, kind, Option.bind_some, typed, Option.getD_some]
  change Except.ok ((Compilation.parameterType? kernels _ v.kind).map _) = _
  rw [typed]
  rfl

theorem names_parameters (options : Options) (hs : List Handle) (body : String) :
    (e.functionText options hs body).parameters.map Prod.fst =
      e.userNames ++ if e.isRandom then ["rng"] else [] := by
  have user : (e.context.aliases.map (e.parameter options.kernels)).map Prod.fst = e.userNames := by
    rw [List.map_map]
    rfl
  rw [functionText, List.map_append, user, generator]
  split <;> rfl

/-- The texts of the parameters, as they are put together. -/
theorem parameters_eq (e : Equation) (options : Options) (hs : List Handle) (body : String) :
    ((e.context.aliases.map fun entry =>
        some (FunctionText.parameterText (e.parameter options.kernels entry))).filterMap id ++
      if e.program.instructions.any (·.primitive.isRandom) then
        ["rng: &mut " ++ options.kernels ++ "::MatrixRng"] else []) =
      (e.functionText options hs body).parameters.map FunctionText.parameterText := by
  rw [functionText, List.map_append, List.map_map, List.filterMap_map, ← List.filterMap_eq_map]
  refine congrArg _ ?_
  rw [generator, isRandom]
  split
  · simp only [List.map_cons, List.map_nil, FunctionText.parameterText, ← String.append_assoc]
    rfl
  · rfl

end Equation

namespace Compilation

variable {name : String} {options : Options} {e e' : Equation}

/-- Optimizing leaves the names of the user as they are. -/
theorem userNames_of_optimizeWhen {enabled : Bool} {policy : Policy} {folder : Folder}
    {report : Option Report} (ran : Yields (optimizeWhen enabled policy folder) e report e') :
    e'.userNames = e.userNames := by
  cases enabled with
  | false =>
      cases ran
      rfl
  | true =>
      obtain ⟨_, d, -, rfl⟩ := of_yields_optimizeWhen ran
      rfl

/-- The declarations of a written program, line by line. -/
theorem header_of_generate {code : Generated} (books : e'.context.workspace.Balanced)
    (ran : Yields (generate options) e code e') :
    e'.userNames = e.userNames ∧ ∃ hs : List Handle,
      (e'.program.temporaries e'.context.table).toOption = some hs ∧
      code.header = String.join ((hs.map (Writer.declared options.kernels e'.context.table)).map
        (FunctionText.declarationText options.indent)) := by
  obtain ⟨w, report, hs, same, -, optimized, listed, header, -⟩ := of_generate ran
  refine ⟨userNames_of_optimizeWhen optimized, hs, listed, ?_⟩
  obtain ⟨-, mentioned⟩ := Program.temporaries_spec listed
  have each : ∀ h ∈ hs, ∃ v, e'.context.table.get? h = some v ∧ v.temporary = true ∧
      v.kind ≠ .sequence := by
    intro h hh
    obtain ⟨-, v, hv, temporary⟩ := (mentioned h).mp hh
    exact ⟨v, hv, temporary, books.kind_ne_sequence hv temporary⟩
  have lines := Writer.yields_declarations (w := w) each options.indent ""
  rw [Writer.textOf, lines, same] at header
  rw [List.map_map, ← Option.some.inj header, String.empty_append]
  refine congrArg String.join (List.map_congr_left fun h hh => ?_)
  obtain ⟨v, hv, -⟩ := each h hh
  exact Writer.declarationLine_eq hv options.kernels options.indent

/-- A written function is made of its parameters, its temporaries and its statements. -/
theorem of_generateFunction {text : String} (valid : e.Valid)
    (ran : Yields (generateFunction name options) e text e') :
    e'.Valid ∧ e'.userNames = e.userNames ∧ ∃ (hs : List Handle) (body : String),
      (e'.program.temporaries e'.context.table).toOption = some hs ∧
      text = (e'.functionText options hs body).text name options := by
  obtain ⟨code, e₁, generated, ran⟩ := ran.of_bind
  have after : e₁.Valid := by
    have chain := stepsBy_generate options e
    rw [generated] at chain
    exact (Equation.keeps_of_chain chain valid).1
  obtain ⟨_, _, got, ran⟩ := ran.of_bind
  cases got
  obtain ⟨parameters, e₂, asked, ran⟩ := ran.of_bind
  cases ran
  obtain ⟨rfl, rfl⟩ := asked.eq_and_eq (yields_mapM_outcome
    (fun entry member => Equation.parameter?_eq after.consistent member options.kernels) e₁)
  obtain ⟨names, hs, listed, header⟩ := header_of_generate after.consistent.books generated
  refine ⟨after, names, hs, code.body, listed, ?_⟩
  rw [Equation.parameters_eq e' options hs code.body, header]
  rfl

end Compilation

namespace Equation

variable {e : Equation} {hs : List Handle}

/-- The names of temporaries are those of different variables. -/
theorem declared_spec (options : Options) (body : String) (books : e.context.workspace.Balanced)
    (listed : (e.program.temporaries e.context.table).toOption = some hs) :
    let names := (e.functionText options hs body).declared.map Prod.fst
    names.Nodup ∧ (∀ name ∈ names, Workspace.isTemporaryName name) ∧
      ∀ name, name ∈ names ↔ ∃ h ∈ e.program.mentions e.context.table, ∃ v,
        e.context.table.get? h = some v ∧ v.temporary = true ∧ v.name = name := by
  obtain ⟨-, mentioned⟩ := Program.temporaries_spec listed
  have called {h : Handle} {v : Variable} (hv : e.context.table.get? h = some v) :
      (Writer.declared options.kernels e.context.table h).1 = v.name := by
    simp [Writer.declared, hv]
  intro names
  have member (name : String) : name ∈ names ↔ ∃ h ∈ e.program.mentions e.context.table, ∃ v,
      e.context.table.get? h = some v ∧ v.temporary = true ∧ v.name = name := by
    simp only [names, functionText, List.map_map, List.mem_map, Function.comp_apply]
    constructor
    · rintro ⟨h, hh, rfl⟩
      obtain ⟨used, v, hv, temporary⟩ := (mentioned h).mp hh
      exact ⟨h, used, v, hv, temporary, (called hv).symm⟩
    · rintro ⟨h, used, v, hv, temporary, rfl⟩
      exact ⟨h, (mentioned h).mpr ⟨used, v, hv, temporary⟩, called hv⟩
  refine ⟨?_, fun name hname => ?_, member⟩
  · simp only [names, functionText, List.map_map]
    refine (Program.nodup_temporaries listed).map_on fun h hh k hk same => ?_
    obtain ⟨-, u, hu, tu⟩ := (mentioned h).mp hh
    obtain ⟨-, v, hv, tv⟩ := (mentioned k).mp hk
    rw [Function.comp_apply, Function.comp_apply, called hu, called hv] at same
    exact books.distinct h k u v hu hv tu tv same
  · obtain ⟨h, -, v, hv, temporary, rfl⟩ := (member name).mp hname
    obtain ⟨n, -, numbered⟩ := books.named h v hv temporary
    rw [numbered]
    exact Workspace.isTemporaryName_temporaryName _ _

/-- Where the user's names and those of the temporaries are distinct, names are hidden only by a
temporary that is called like a variable of the user, or by a variable called like the generator. -/
theorem captureFree_functionText {options : Options} {body : String} (user : e.userNames.Nodup)
    (own : ((e.functionText options hs body).declared.map Prod.fst).Nodup)
    (plain : ∀ name ∈ (e.functionText options hs body).declared.map Prod.fst,
      Workspace.isTemporaryName name) :
    (e.functionText options hs body).CaptureFree ↔
      (∀ name ∈ e.userNames, name ∉ (e.functionText options hs body).declared.map Prod.fst) ∧
        (e.isRandom → "rng" ∉ e.userNames) := by
  have apart : "rng" ∉ (e.functionText options hs body).declared.map Prod.fst := fun member =>
    absurd (plain "rng" member) (by decide)
  rw [FunctionText.CaptureFree, FunctionText.names, names_parameters, List.nodup_append]
  cases e.isRandom with
  | false =>
      simp only [Bool.false_eq_true, if_false, List.append_nil, false_implies, and_true]
      exact ⟨fun ⟨_, _, other⟩ name hname member => other name member name hname rfl,
        fun other => ⟨own, user, fun x hx y hy same => other y hy (same ▸ hx)⟩⟩
  | true =>
      simp only [if_true, true_implies, List.nodup_append, List.nodup_singleton, List.mem_append,
        List.mem_singleton]
      constructor
      · rintro ⟨-, ⟨-, -, generator⟩, other⟩
        exact ⟨fun name hname member => other name member name (.inl hname) rfl,
          fun member => generator _ member _ rfl rfl⟩
      · rintro ⟨other, generator⟩
        refine ⟨own, ⟨user, trivial, fun x hx y hy same => ?_⟩, fun x hx y hy same => ?_⟩
        · exact generator (hy ▸ same ▸ hx)
        · obtain hy | rfl := hy
          · exact other y hy (same ▸ hx)
          · exact apart (same ▸ hx)

end Equation

namespace Session

/-- In a function that is written in a session, the names of temporaries differ from each other, and
those of the user's parameters do. A name is introduced twice exactly if the user has given a variable
the name of a temporary that is declared, or, where random numbers are drawn, that of the generator. -/
theorem captureFree_generateFunction {commands : List Command} {p : Program} {name text : String}
    {options : Options} {e : Equation} (built : p ∈ (run commands).programs)
    (ran : Yields (Compilation.generateFunction name options) ⟨(run commands).context, p⟩ text e) :
    ∃ f : FunctionText, text = f.text name options ∧
      f.parameters.map Prod.fst = (run commands).context.aliases.map Prod.fst ++
        (if e.program.instructions.any (·.primitive.isRandom) then ["rng"] else []) ∧
      (∀ name, name ∈ f.declared.map Prod.fst ↔ ∃ h ∈ e.program.mentions e.context.table, ∃ v,
        e.context.table.get? h = some v ∧ v.temporary = true ∧ v.name = name) ∧
      (∀ name ∈ f.declared.map Prod.fst, Workspace.isTemporaryName name) ∧
      (f.declared.map Prod.fst).Nodup ∧ ((run commands).context.aliases.map Prod.fst).Nodup ∧
      (f.CaptureFree ↔
        (∀ name ∈ (run commands).context.aliases.map Prod.fst, name ∉ f.declared.map Prod.fst) ∧
        (e.program.instructions.any (·.primitive.isRandom) →
          "rng" ∉ (run commands).context.aliases.map Prod.fst)) := by
  have start : Equation.Valid ⟨(run commands).context, p⟩ :=
    ⟨(valid_run commands).consistent, (valid_run commands).fits p built⟩
  obtain ⟨after, same, hs, body, listed, written⟩ := Compilation.of_generateFunction start ran
  obtain ⟨own, plain, member⟩ :=
    Equation.declared_spec options body after.consistent.books listed
  have user : e.userNames.Nodup := after.consistent.names
  have free := Equation.captureFree_functionText user own plain
  have parameters := Equation.names_parameters (e := e) options hs body
  rw [same] at free parameters user
  exact ⟨_, written, parameters, member, plain, own, user, free⟩

/-- The equation `x = a' * a`, where `a` goes by a name of choice. -/
def gram (name : String) : List Command :=
  [.declare name .matrix, .declare "x" .matrix, .begin, .request 0 (.unary .transpose ⟨2⟩),
    .request 0 (.binary .multiply ⟨4⟩ ⟨2⟩), .assign 0 ⟨5⟩ ⟨3⟩]

/-- The equation `x = randn (n, n)`, where `n` goes by a name of choice. -/
def draw (name : String) : List Command :=
  [.declare name .integer, .declare "x" .matrix, .begin, .request 0 (.binary .normal ⟨2⟩ ⟨2⟩),
    .assign 0 ⟨4⟩ ⟨3⟩]

/-- The first program of the session, in its context. -/
def first (s : Session) : Equation := ⟨s.context, s.programs.headD .empty⟩

theorem first_mem {s : Session} (some : s.programs ≠ []) : s.first.program ∈ s.programs := by
  obtain ⟨p, ps, split⟩ := List.exists_cons_of_ne_nil some
  simp [first, split]

theorem captureFree_gram : ∃ text e, (run (gram "a")).first.program ∈ (run (gram "a")).programs ∧
    Yields (Compilation.generateFunction "gram" .standard) (run (gram "a")).first text e ∧
    ∃ f : FunctionText, text = f.text "gram" .standard ∧ "tm0" ∈ f.declared.map Prod.fst ∧
      f.parameters.map Prod.fst = ["a", "x"] ∧ f.CaptureFree := by
  have built := first_mem (s := run (gram "a")) (by decide +kernel)
  obtain ⟨text, ran⟩ := exists_yields (x := Compilation.generateFunction "gram" .standard)
    (s := (run (gram "a")).first) (by decide +kernel)
  refine ⟨text, _, built, ran, ?_⟩
  obtain ⟨f, written, parameters, member, plain, -, -, free⟩ := captureFree_generateFunction built ran
  have user : (run (gram "a")).context.aliases.map Prod.fst = ["a", "x"] := by decide +kernel
  set e := ((Compilation.generateFunction "gram" .standard).run.run (run (gram "a")).first).2
  have calm : e.program.instructions.any (·.primitive.isRandom) = false := by decide +kernel
  have used : ⟨4⟩ ∈ e.program.mentions e.context.table := by decide +kernel
  have entry : (e.context.table.get? ⟨4⟩).map (fun v => (v.temporary, v.name)) = some (true, "tm0") := by
    decide +kernel
  obtain ⟨v, hv, is⟩ := Option.map_eq_some_iff.mp entry
  obtain ⟨temporary, called⟩ := Prod.mk.inj is
  rw [user, calm] at parameters free
  refine ⟨f, written, (member "tm0").mpr ⟨⟨4⟩, used, v, hv, temporary, called⟩, parameters,
    free.mpr ⟨fun name hname declared => ?_, by simp⟩⟩
  have other : ∀ name ∈ ["a", "x"], Workspace.isTemporaryName name = false := by decide
  exact absurd (plain name declared) (by simp [other name hname])

end Session

namespace FunctionText

/-- A function whose only temporary hides the matrix that it is computed from. -/
def gram : FunctionText where
  parameters := [("tm0", "&mateq::kernels::Matrix"), ("x", "&mut mateq::kernels::Matrix")]
  declared := [("tm0", " = mateq::kernels::Matrix::zeros(0, 0)")]
  body :=
    "    tm0.resize_mut(tm0.ncols(), tm0.nrows(), 0.0);\n" ++
    "    mateq::kernels::transpose_into(tm0, &mut tm0)?;\n" ++
    "    x.resize_mut(tm0.nrows(), tm0.ncols(), 0.0);\n" ++
    "    mateq::kernels::multiply_into(&tm0, tm0, &mut *x)?;\n"

/-- A function with two parameters of one name. -/
def draw : FunctionText where
  parameters := [("rng", "i64"), ("x", "&mut mateq::kernels::Matrix"),
    ("rng", "&mut mateq::kernels::MatrixRng")]
  declared := []
  body := "    *x = mateq::kernels::randn(rng, rng, rng)?;\n"

end FunctionText

theorem Session.not_captureFree :
    (∃ e, Yields (Compilation.generateFunction "gram" .standard) (run (gram "tm0")).first
      (FunctionText.gram.text "gram" .standard) e) ∧ ¬FunctionText.gram.CaptureFree ∧
    (∃ e, Yields (Compilation.generateFunction "draw" .standard) (run (draw "rng")).first
      (FunctionText.draw.text "draw" .standard) e) ∧ ¬FunctionText.draw.CaptureFree := by
  refine ⟨⟨_, yields_of_toOption ?_⟩, ?_, ⟨_, yields_of_toOption ?_⟩, ?_⟩
  · decide +kernel
  · decide +kernel
  · decide +kernel
  · decide +kernel

end MatrixCode
