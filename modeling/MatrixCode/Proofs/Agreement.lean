import MatrixCode.Proofs.Computation
import MatrixCode.Proofs.Folding
import MatrixCode.Proofs.Replacement

/-!
Drafts that agree. Two drafts agree when their runs on the same values both fail, or both
succeed and leave the same random number generator and the same values in the variables of
the user. A reduction agrees with what it was made from, and so does a renaming that keeps
apart what is live.
-/

namespace MatrixCode

namespace Draft

/-- Runs the instructions of the draft: the machine then, and what is left to do. -/
def advance (d : Draft) (m : Machine) : Machine × List Instruction :=
  Machine.advance d.workspace.table d.program.instructions m

/-- The handle is not that of a variable of the compiler. -/
def IsUser (d : Draft) (h : Handle) : Prop := ¬d.workspace.table.IsTemporary h

instance (d : Draft) (h : Handle) : Decidable (d.IsUser h) :=
  inferInstanceAs (Decidable ¬d.workspace.table.IsTemporary h)

/-- What holds between the passes of the optimizer: everything is in the table, outputs are of
the kind of their operation, and a temporary is neither a literal nor read before it is
written. -/
structure Sound (d : Draft) : Prop where
  covered : ∀ i ∈ d.program.instructions, i.Covered d.workspace.table
  typed : ∀ i ∈ d.program.instructions, i.Typed d.workspace.table
  plain : ∀ o ∈ Instruction.outputs d.program.instructions, ∀ a, d.workspace.table.IsTemporary o →
    d.workspace.table.appearance? o = some a → a.isLiteral = false
  opened : ∀ h, d.workspace.table.IsTemporary h →
    ¬Live d.workspace.table d.IsUser d.program.instructions h

/-- Runs of the two drafts end alike, as far as the handles in `p` tell. -/
structure Agrees (p : Handle → Prop) (d d' : Draft) : Prop where
  kind : ∀ h, d'.workspace.table.kind? h = d.workspace.table.kind? h
  done : ∀ m, m.store.WellKinded d.workspace.table → ((d'.advance m).2 = [] ↔ (d.advance m).2 = [])
  generator : ∀ m, m.store.WellKinded d.workspace.table → (d.advance m).2 = [] →
    (d'.advance m).1.generator = (d.advance m).1.generator
  value : ∀ m, m.store.WellKinded d.workspace.table → (d.advance m).2 = [] → ∀ h, p h →
    (d'.advance m).1.store.get? h = (d.advance m).1.store.get? h

theorem yields_run_iff {d : Draft} {m m' : Machine} :
    Yields (Machine.run d.workspace.table d.program) m () m' ↔ d.advance m = (m', []) := by
  obtain ⟨r, ran, outcome⟩ := Machine.run_eq_advance d.workspace.table d.program m
  rw [Yields, ran, Draft.advance, Prod.ext_iff, Prod.ext_iff]
  cases r with
  | ok _ => simpa [and_comm] using fun _ => Decidable.not_not.mp (mt outcome.mpr (by simp))
  | error e => simpa using fun _ => outcome.mp rfl

/-- Drafts of which the same is left to do both run to the end, or both fail. -/
theorem runs_of_advance {p : Handle → Prop} {d d' : Draft} {m : Machine}
    (left : (d'.advance m).2 = [] ↔ (d.advance m).2 = [])
    (generator : (d.advance m).2 = [] → (d'.advance m).1.generator = (d.advance m).1.generator)
    (value : (d.advance m).2 = [] → ∀ h, p h →
      (d'.advance m).1.store.get? h = (d.advance m).1.store.get? h) :
    (∃ m₁ m₂, Yields (Machine.run d.workspace.table d.program) m () m₁ ∧
      Yields (Machine.run d'.workspace.table d'.program) m () m₂ ∧
      m₂.generator = m₁.generator ∧ ∀ h, p h → m₂.store.get? h = m₁.store.get? h) ∨
    ∃ m₁ m₂, Fails (Machine.run d.workspace.table d.program) m m₁ ∧
      Fails (Machine.run d'.workspace.table d'.program) m m₂ := by
  obtain ⟨_, m₁, ran⟩ | ⟨m₁, failed⟩ := yields_or_fails (Machine.run d.workspace.table d.program) m
  · have finished := yields_run_iff.mp ran
    have done : (d.advance m).2 = [] := by rw [finished]
    refine .inl ⟨m₁, (d'.advance m).1, ran, yields_run_iff.mpr (Prod.ext rfl (left.mpr done)), ?_, ?_⟩
    · rw [generator done, finished]
    · intro h hp
      rw [value done h hp, finished]
  · obtain ⟨_, m₂, ran⟩ | ⟨m₂, failed'⟩ :=
      yields_or_fails (Machine.run d'.workspace.table d'.program) m
    · have done := left.mp (by rw [yields_run_iff.mp ran])
      exact absurd failed (yields_run_iff.mpr (Prod.ext rfl done)).not_fails
    · exact .inr ⟨m₁, m₂, failed, failed'⟩

namespace Agrees

variable {p q : Handle → Prop} {d d' d'' : Draft}

theorem refl (p : Handle → Prop) (d : Draft) : Agrees p d d :=
  ⟨fun _ => rfl, fun _ _ => .rfl, fun _ _ _ => rfl, fun _ _ _ _ _ => rfl⟩

theorem mono (a : Agrees p d d') (h : ∀ k, q k → p k) : Agrees q d d' :=
  ⟨a.kind, a.done, a.generator, fun m hm done k hk => a.value m hm done k (h k hk)⟩

theorem wellKinded (a : Agrees p d d') {s : Store} (hs : s.WellKinded d.workspace.table) :
    s.WellKinded d'.workspace.table :=
  fun h x hx => (a.kind h).trans (hs h x hx)

theorem trans (a : Agrees p d d') (b : Agrees p d' d'') : Agrees p d d'' where
  kind h := (b.kind h).trans (a.kind h)
  done m hm := (b.done m (a.wellKinded hm)).trans (a.done m hm)
  generator m hm done := by
    rw [b.generator m (a.wellKinded hm) ((a.done m hm).mpr done), a.generator m hm done]
  value m hm done h hp := by
    rw [b.value m (a.wellKinded hm) ((a.done m hm).mpr done) h hp, a.value m hm done h hp]

/-- A run that succeeds, in terms of the other draft. -/
theorem run (a : Agrees p d d') {m m₁ : Machine} (kinded : m.store.WellKinded d.workspace.table)
    (ran : Yields (Machine.run d.workspace.table d.program) m () m₁) :
    ∃ m₂, Yields (Machine.run d'.workspace.table d'.program) m () m₂ ∧
      m₂.generator = m₁.generator ∧ ∀ h, p h → m₂.store.get? h = m₁.store.get? h := by
  have finished := yields_run_iff.mp ran
  have done : (d.advance m).2 = [] := by rw [finished]
  refine ⟨(d'.advance m).1, yields_run_iff.mpr (Prod.ext rfl ((a.done m kinded).mpr done)), ?_, ?_⟩
  · rw [a.generator m kinded done, finished]
  · intro h hp
    rw [a.value m kinded done h hp, finished]

end Agrees

section Passes

variable {f : Handle → Handle} {d d' : Draft}

/-- A renaming of temporaries that keeps apart what is live. -/
theorem RenamedBy.tracks (r : RenamedBy f d d') (merges : Table.Merges f d.workspace.table)
    (fixed : ∀ h, d.IsUser h → f h = h) (sound : d.Sound)
    (clear : Clear f d.workspace.table d.IsUser d.program.instructions) (m : Machine) :
    (d'.advance m).2 = (d.advance m).2.map (.rename f) ∧
      Tracks f (Live d.workspace.table d.IsUser (d.advance m).2) (d.advance m).1 (d'.advance m).1 := by
  have start : Tracks f (Live d.workspace.table d.IsUser d.program.instructions) m m := by
    refine ⟨fun h live => ?_, rfl⟩
    rw [fixed h fun temporary => sound.opened h temporary live]
  have run := Tracks.advance (r.renames merges (List.Subset.refl _)) clear start
  rwa [← r.instructions] at run

theorem RenamedBy.agrees (r : RenamedBy f d d') (merges : Table.Merges f d.workspace.table)
    (fixed : ∀ h, d.IsUser h → f h = h) (sound : d.Sound)
    (clear : Clear f d.workspace.table d.IsUser d.program.instructions) :
    Agrees d.IsUser d d' := by
  have run := r.tracks merges fixed sound clear
  refine ⟨r.kind?, fun m _ => ?_, fun m _ _ => (run m).2.generator, fun m _ done h user => ?_⟩
  · rw [(run m).1, List.map_eq_nil_iff]
  · have value := (run m).2.value h
    rw [fixed h user, done] at value
    exact value user

theorem RenamedBy.isUser (r : RenamedBy f d d') (h : Handle) : d'.IsUser h ↔ d.IsUser h :=
  not_congr (r.isTemporary h)

theorem RenamedBy.sound (r : RenamedBy f d d') (keeps : Table.Keeps f d.workspace.table)
    (alike : ∀ h, d.workspace.table.IsTemporary (f h) →
      d.workspace.table.appearance? (f h) = d.workspace.table.appearance? h)
    (fixed : ∀ h, d.IsUser h → f h = h) (sound : d.Sound) : d'.Sound where
  covered i hi := by
    rw [r.instructions] at hi
    obtain ⟨j, hj, rfl⟩ := List.mem_map.mp hi
    exact r.covered keeps hj (sound.covered j hj)
  typed i hi := by
    rw [r.instructions] at hi
    obtain ⟨j, hj, rfl⟩ := List.mem_map.mp hi
    exact r.typed keeps (sound.typed j hj)
  plain o' ho' a temporary ha := by
    rw [r.instructions, Instruction.outputs_map_rename] at ho'
    obtain ⟨o, ho, rfl⟩ := List.mem_map.mp ho'
    rw [r.isTemporary] at temporary
    rw [r.appearance?, alike o temporary] at ha
    refine sound.plain o ho a ?_ ha
    by_contra user
    rw [fixed o user] at temporary
    exact user temporary
  opened w temporary live := by
    rw [r.instructions] at live
    obtain ⟨h, rfl, before⟩ := Live.of_rename
      (fun i hi k hk => r.content? keeps (List.mem_flatMap.mpr ⟨i, hi, hk⟩))
      (fun w user => ⟨w, fixed w ((r.isUser w).mp user), (r.isUser w).mp user⟩) live
    have user : d.IsUser h := fun temporary => sound.opened h temporary before
    rw [fixed h user] at temporary
    exact user ((r.isTemporary h).mp temporary)

theorem Sound.foldable (sound : d.Sound)
    (once : ∀ o, d.workspace.table.IsTemporary o →
      (Instruction.outputs d.program.instructions).count o ≤ 1)
    (steps : ∀ i ∈ d.program.instructions, ∀ k ∈ i.steps d.workspace.table, d.IsUser k) :
    Foldable d.workspace.table d.IsUser d.program.instructions where
  fresh o _ := sound.opened o
  once := once
  plain := sound.plain
  typed := sound.typed
  steps := steps

/-- A temporary that is mentioned is written. -/
theorem Sound.mem_outputs (sound : d.Sound) {i : Instruction} (hi : i ∈ d.program.instructions)
    {h : Handle} (hh : h ∈ i.mentions d.workspace.table) (temporary : d.workspace.table.IsTemporary h) :
    h ∈ Instruction.outputs d.program.instructions := by
  obtain ⟨done, rest, split⟩ := List.append_of_mem hi
  rw [split]
  rcases List.mem_append.mp hh with read | written
  · by_contra unwritten
    simp only [Instruction.outputs_append, List.mem_append, not_or] at unwritten
    refine sound.opened h temporary ?_
    rw [split]
    exact Live.of_notMem_outputs unwritten.1 (.inl (Instruction.mem_uses_of_mem_sources read))
  · simp [Option.mem_toList.mp written]

variable (reduces : Reduces d.workspace.table d.program.instructions d'.program.instructions
  d'.workspace.table)

include reduces

/-- Leaving out instructions on literals. -/
theorem agrees_of_reduces
    (foldable : Foldable d.workspace.table d.IsUser d.program.instructions) :
    Agrees d.IsUser d d' where
  kind h := by rw [Table.kind?_eq_content?, Table.kind?_eq_content?, reduces.content?]
  done m hm := (reduces.advance_eq foldable hm).1.symm
  generator m hm _ := (reduces.advance_eq foldable hm).2.1
  value m hm done h user := by
    have value := (reduces.advance_eq foldable hm).2.2 h user
    rw [show (Machine.advance _ _ m).2 = [] from done] at value
    exact value user

omit reduces

theorem sound_of_shortens {folds : Table → Instruction → Handle → ScalarText → Prop}
    (shortens : Shortens folds d.workspace.table d.program.instructions d'.program.instructions
      d'.workspace.table) (sound : d.Sound) : d'.Sound where
  covered i hi := (sound.covered i (shortens.sublist.subset hi)).congr shortens.content?
  typed i hi := (sound.typed i (shortens.sublist.subset hi)).congr shortens.kind?
  plain o ho a temporary ha := by
    have same := Table.appearance?_congr (shortens.get?_of_isTemporary temporary)
    exact sound.plain o ((shortens.sublist.filterMap _).subset ho) a (shortens.isTemporary temporary)
      (by rwa [same] at ha)
  opened h temporary live :=
    sound.opened h (shortens.isTemporary temporary)
      (shortens.live temporary (fun user => absurd temporary user) live)

end Passes
end Draft

namespace Drafting

theorem run_query {α : Type} (f : Program → Table → Outcome α) (d : Draft) :
    (query f).run.run d = (f d.program d.workspace.table, d) :=
  run_outcome (f d.program d.workspace.table) d

theorem yields_query {α : Type} {f : Program → Table → Outcome α} {d : Draft} {a : α}
    (h : (f d.program d.workspace.table).toOption = some a) : Yields (query f) d a d := by
  rw [Yields, run_query, Outcome.toOption_eq_some.mp h]

end Drafting
end MatrixCode
