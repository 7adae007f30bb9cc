import MatrixCode.Proofs.Consistency

/-!
Sessions. In one context, variables are declared and bound, programs are built, optimized, run
and written out, in any order; a command that fails leaves what it did until then. Whatever the
commands, the context is consistent after each of them.
-/

namespace MatrixCode

/-- A context, and the programs that are built in it. -/
structure Session where
  context : Context
  programs : List Program

/-- What can be done in a session. Programs go by their numbers. -/
inductive Command where
  | declare (name : String) (kind : Kind)
  | bind (name : String) (value : Value)
  | reseed (seed : UInt64)
  | begin
  | integer (value : Int64)
  | double (value : Float)
  | sequence (range : IndexRange)
  | request (n : Nat) (r : Request)
  | assign (n : Nat) (source target : Handle)
  | assignRange (n : Nat) (source target : Handle) (range : List Handle)
  | optimize (n : Nat) (policy : Policy) (folder : Folder)
  | execute (n : Nat) (optimize : Bool)
  | generate (n : Nat) (options : Options)
  | generateFunction (n : Nat) (name : String) (options : Options)
  | release (n : Nat)

/-- The variables of a range that the command makes. -/
def Command.ranged : Command → List Handle
  | sequence range => range.referenced
  | _ => []

/-- The command makes ranges over variables that exist. -/
def Command.Grounded (t : Table) (command : Command) : Prop :=
  ∀ h ∈ command.ranged, (t.get? h).isSome

instance (t : Table) (command : Command) : Decidable (command.Grounded t) :=
  inferInstanceAs (Decidable (∀ h ∈ command.ranged, (t.get? h).isSome))

namespace Session

def initial : Session := ⟨.initial, []⟩

/-- Changes the context, unless that fails. -/
def change (s : Session) (result : Outcome (Handle × Context)) : Session :=
  match result with
  | .ok (_, c) => { s with context := c }
  | .error _ => s

/-- Enters a variable into the table. -/
def enter (s : Session) (f : Table → Handle × Table) : Session :=
  { s with context.workspace.table := (f s.context.table).2 }

/-- Works on one of the programs; what is done before a failure stays. -/
def work {α : Type} (s : Session) (n : Nat) (x : Compilation α) : Session :=
  match s.programs[n]? with
  | some p =>
    let e := (x.run.run ⟨s.context, p⟩).2
    ⟨e.context, s.programs.set n e.program⟩
  | none => s

def perform (s : Session) : Command → Session
  | .declare name kind => s.change (s.context.declare name kind)
  | .bind name value => s.change (s.context.bind name value)
  | .reseed seed => { s with context := s.context.reseed seed }
  | .begin => { s with programs := s.programs ++ [.empty] }
  | .integer value => s.enter (·.integer value)
  | .double value => s.enter (·.double value)
  | .sequence range => s.enter (·.sequence range)
  | .request n r => s.work n (.drafting (.apply r.perform))
  | .assign n source target => s.work n (.drafting (.assign source target))
  | .assignRange n source target range => s.work n (.drafting (.assignRange source target range))
  | .optimize n policy folder => s.work n (.drafting (.optimize policy folder))
  | .execute n optimize => s.work n (.execute optimize)
  | .generate n options => s.work n (.generate options)
  | .generateFunction n name options => s.work n (.generateFunction name options)
  | .release n => s.work n .release

/-- The session after some commands. -/
def run (commands : List Command) : Session := commands.foldl perform initial

end Session

namespace Session

/-- The context is consistent, and all programs fit. -/
structure Valid (s : Session) : Prop where
  consistent : s.context.Consistent
  fits : ∀ p ∈ s.programs, Draft.Fits ⟨s.context.workspace, p⟩

/-- What a command leaves: a valid session, and under a condition a grounded table. -/
structure Kept (s : Session) (condition : Prop) (s' : Session) : Prop where
  valid : s'.Valid
  grounded : condition → s.context.table.Grounded → s'.context.table.Grounded

namespace Valid

variable {s : Session} {condition : Prop}

theorem kept (valid : s.Valid) : s.Kept condition s := ⟨valid, fun _ => id⟩

theorem develop (valid : s.Valid) {c : Context} (consistent : c.Consistent)
    (develops : s.context.table.Develops c.table) : s.Kept condition { s with context := c } :=
  ⟨⟨consistent, fun p hp i hi => (valid.fits p hp i hi).mono develops.kind⟩, fun _ => develops.grounded⟩

theorem enter (valid : s.Valid) {f : Table → Handle × Table}
    (gains : s.context.table.Gains (f s.context.table).2)
    (grounded : condition → s.context.table.Grounded → (f s.context.table).2.Grounded) :
    s.Kept condition (s.enter f) :=
  ⟨⟨valid.consistent.gain gains, fun p hp i hi =>
    (valid.fits p hp i hi).mono (Table.Evolves.of_extends gains.entries).kind⟩, grounded⟩

theorem work {α : Type} (valid : s.Valid) (n : Nat) {x : Compilation α}
    (steps : StepsBy Equation.Keeps x) : s.Kept condition (s.work n x) := by
  unfold Session.work
  split
  · next p found =>
      have member := List.mem_of_getElem? found
      have start : Equation.Valid ⟨s.context, p⟩ := ⟨valid.consistent, valid.fits p member⟩
      obtain ⟨after, develops⟩ := Equation.keeps_of_chain (steps ⟨s.context, p⟩) start
      refine ⟨⟨after.consistent, fun q hq => ?_⟩, fun _ => develops.grounded⟩
      obtain old | rfl := List.mem_or_eq_of_mem_set hq
      · exact fun i hi => (valid.fits q old i hi).mono develops.kind
      · exact after.fits
  · exact valid.kept

theorem withGenerator (valid : s.Valid) (g : Generator) : s.Kept condition
    { s with context := { s.context with machine := { s.context.machine with generator := g } } } :=
  ⟨⟨valid.consistent.withGenerator g, valid.fits⟩, fun _ => id⟩

theorem begin (valid : s.Valid) : s.Kept condition { s with programs := s.programs ++ [.empty] } := by
  refine ⟨⟨valid.consistent, fun p hp => ?_⟩, fun _ => id⟩
  obtain old | new := List.mem_append.mp hp
  · exact valid.fits p old
  · obtain rfl := List.mem_singleton.mp new
    exact fun i hi => by cases hi

/-- Every command leaves a valid session, and a grounded table if it makes ranges over variables
that exist. -/
theorem perform (valid : s.Valid) (command : Command) :
    s.Kept (command.Grounded s.context.table) (s.perform command) := by
  cases command with
  | declare name kind =>
      simp only [Session.perform, change]
      split
      · next h c declared =>
          obtain ⟨consistent, develops, -⟩ := valid.consistent.declare declared
          exact valid.develop consistent develops
      · exact valid.kept
  | bind name value =>
      simp only [Session.perform, change]
      split
      · next h c bound =>
          obtain ⟨consistent, develops⟩ := valid.consistent.bind bound
          exact valid.develop consistent develops
      · exact valid.kept
  | reseed seed =>
      -- The generator is never looked into: the seed would be expanded in full.
      simp only [Session.perform, Context.reseed]
      generalize Generator.ofSeed seed = g
      exact valid.withGenerator g
  | begin => exact valid.begin
  | integer value =>
      exact valid.enter (f := (·.integer value)) (s.context.table.gains_integer value)
        fun _ grounded => grounded.integer value
  | double value =>
      exact valid.enter (f := (·.double value)) (s.context.table.gains_double value)
        fun _ grounded => grounded.double value
  | sequence range =>
      exact valid.enter (f := (·.sequence range)) (s.context.table.gains_sequence range)
        fun listed grounded => grounded.sequence listed
  | request n r => exact valid.work n (Compilation.stepsBy_extending (Drafting.extended_apply r))
  | assign n source target =>
      exact valid.work n (Compilation.stepsBy_extending (Drafting.extended_assign source target))
  | assignRange n source target range =>
      exact valid.work n
        (Compilation.stepsBy_extending (Drafting.extended_assignRange source target range))
  | optimize n policy folder => exact valid.work n (Compilation.stepsBy_optimize policy folder)
  | execute n optimize => exact valid.work n (Compilation.stepsBy_execute optimize)
  | generate n options => exact valid.work n (Compilation.stepsBy_generate options)
  | generateFunction n name options =>
      exact valid.work n (Compilation.stepsBy_generateFunction name options)
  | release n => exact valid.work n Compilation.stepsBy_release

end Valid

theorem valid_initial : initial.Valid := by
  have entries (h : Handle) (v : Variable) (hv : Table.initial.get? h = some v) : v.temporary = false := by
    have all : ∀ u ∈ Table.initial.entries, u.temporary = false := by decide +kernel
    exact all v (Array.mem_of_getElem? hv)
  have user (h : Handle) : ¬Table.initial.IsTemporary h := by
    rintro ⟨v, hv, temporary⟩
    simp [entries h v hv] at temporary
  refine ⟨⟨List.nodup_nil, by simp [initial, Context.initial], ?_, Store.wellKinded_empty _,
    fun h temporary => absurd temporary (user h)⟩, by simp [initial]⟩
  refine ⟨List.nodup_nil, by simp [initial, Context.initial, Workspace.initial], fun kind => ?_,
    fun h v hv temporary => absurd ⟨v, hv, temporary⟩ (user h),
    fun h _ v _ hv _ temporary => absurd ⟨v, hv, temporary⟩ (user h)⟩
  cases kind <;> rfl

theorem valid_run (commands : List Command) : (run commands).Valid :=
  List.foldlRecOn commands Session.perform valid_initial fun _ valid command _ =>
    (valid.perform command).valid

/-- Whatever is done in a session, the context is consistent. -/
theorem consistent_run (commands : List Command) : (run commands).context.Consistent :=
  (valid_run commands).consistent

end Session
end MatrixCode
