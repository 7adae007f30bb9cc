import MatrixCode.Proofs.Optimization

/-!
Symbolic runs. Instructions are symbols without a meaning, applied to what they read, and a run gives
every variable a term over what the variables hold at the start. Two things are not symbols: a copy
within a kind hands its operand on, and the integer operations that folding carries out on numbers
give the number. How an operand is read is a parameter, since a temporary that was folded away is read
through the instructions that it stands for.
-/

namespace MatrixCode

/-- An instruction without its handles, and the shapes of its ranges. -/
structure Symbol where
  instruction : Instruction
  ranges : List (Option IndexRange)

inductive Term where
  /-- What the variable stands for at the start. -/
  | initial (h : Handle)
  | integer (n : Int64)
  | apply (symbol : Symbol) (arguments : List Term)

def Term.integer? : Term → Option Int64
  | .integer n => some n
  | _ => none

namespace Instruction

def symbol (t : Table) (i : Instruction) : Symbol where
  instruction := { i.rename (fun _ => ⟨0⟩) with output := none }
  ranges := (i.range.getD []).map fun h => (t.range? h).map (.map fun _ => ⟨0⟩)

/-- The instruction copies a whole variable within a kind. -/
def handsOn (t : Table) (i : Instruction) : Bool :=
  i.isPlainCopy && i.inputs.head?.bind t.kind? = i.output.bind t.kind?

/-- The value of an integer operation on numbers that is a number in the text, too: what is folded
without asking anyone, and the extremes of one number. -/
def number? (i : Instruction) (words : List Int64) : Option Int64 :=
  if Folding.isClosed i || i.signature = .i && [.maximum, .minimum].contains i.primitive then
    i.primitive.onWords words
  else none

/-- The term that the instruction gives for its operands. -/
def term (t : Table) (i : Instruction) (arguments : List Term) : Term :=
  if i.handsOn t then arguments.headD (.apply (i.symbol t) arguments)
  else match (arguments.mapM Term.integer?).bind i.number? with
    | some n => .integer n
    | none => .apply (i.symbol t) arguments

variable {t t' : Table} {f : Handle → Handle} {i : Instruction}

theorem symbol_rename
    (content : ∀ k ∈ i.range.getD [], t'.content? (f k) = (t.content? k).map (.map f)) :
    (i.rename f).symbol t' = i.symbol t := by
  have erased (k : Handle) (hk : k ∈ i.range.getD []) :
      (t'.range? (f k)).map (IndexRange.map fun _ => ⟨0⟩) =
        (t.range? k).map (IndexRange.map fun _ => ⟨0⟩) := by
    rw [Table.range?_map (content k hk), Option.map_map]
    congr 1
    funext r
    exact IndexRange.map_map f _ r
  rw [symbol, symbol, getD_rename_range, List.map_map]
  congr 1
  · simp [rename, Function.comp_def]
  · exact List.map_congr_left erased

theorem term_rename
    (content : ∀ k ∈ i.range.getD [], t'.content? (f k) = (t.content? k).map (.map f))
    (kinds : ∀ h, t'.kind? (f h) = t.kind? h) (arguments : List Term) :
    (i.rename f).term t' arguments = i.term t arguments := by
  have input : (i.rename f).inputs.head?.bind t'.kind? = i.inputs.head?.bind t.kind? := by
    rw [rename_inputs]
    cases i.inputs <;> simp [kinds]
  have output : (i.rename f).output.bind t'.kind? = i.output.bind t.kind? := by
    rw [rename_output]
    cases i.output <;> simp [kinds]
  have hands : (i.rename f).handsOn t' = i.handsOn t := by
    rw [handsOn, handsOn, rename_isPlainCopy, input, output]
  rw [term, term, hands, symbol_rename content]
  rfl

theorem term_congr (same : ∀ h, t'.content? h = t.content? h) (i : Instruction)
    (arguments : List Term) : i.term t' arguments = i.term t arguments := by
  have kinds (h : Handle) : t'.kind? h = t.kind? h := by
    rw [Table.kind?_eq_content?, Table.kind?_eq_content?, same]
  have content (k : Handle) : t'.content? (id k) = (t.content? k).map (.map id) := by
    rw [id, same]
    cases t.content? k with
    | none => rfl
    | some c => rw [Option.map_some, Content.map_id]
  have renamed : (i.rename id).term t' arguments = i.term t arguments :=
    term_rename (fun k _ => content k) kinds arguments
  rwa [rename_id] at renamed

end Instruction

/-- The term that each variable holds. -/
abbrev Symbolic := Handle → Term

namespace Symbolic

def set (s : Symbolic) (o : Option Handle) (x : Term) : Symbolic :=
  fun h => if o = some h then x else s h

/-- A run of instructions, with a way to read operands. -/
def run (t : Table) (read : Symbolic → Handle → Term) : List Instruction → Symbolic → Symbolic
  | [], s => s
  | i :: is, s => run t read is (s.set i.output (i.term t ((i.uses t).map (read s))))

variable {t t' : Table} {read : Symbolic → Handle → Term} {is : List Instruction} {s : Symbolic}

theorem run_append (is js : List Instruction) (s : Symbolic) :
    run t read (is ++ js) s = run t read js (run t read is s) := by
  induction is generalizing s with
  | nil => rfl
  | cons i is ih => exact ih _

theorem run_congr (same : ∀ h, t'.content? h = t.content? h) (is : List Instruction)
    (s : Symbolic) : run t' read is s = run t read is s := by
  induction is generalizing s with
  | nil => rfl
  | cons i is ih =>
      simp only [run]
      rw [ih, Instruction.uses_congr same, Instruction.term_congr same]

/-- A variable that is not written keeps its term. -/
theorem run_of_notMem {h : Handle} (hn : h ∉ Instruction.outputs is) : run t read is s h = s h := by
  induction is generalizing s with
  | nil => rfl
  | cons i is ih =>
      rw [Instruction.outputs_cons, List.mem_append, not_or, Option.mem_toList] at hn
      simp only [run]
      rw [ih hn.2, set, if_neg hn.1]

/-- What the only instruction that writes a variable gives it. -/
theorem run_of_split {done rest : List Instruction} {i : Instruction} {o : Handle}
    (output : i.output = some o) (once : o ∉ Instruction.outputs rest) :
    run t read (done ++ i :: rest) s o =
      i.term t ((i.uses t).map (read (run t read done s))) := by
  rw [run_append]
  simp only [run]
  rw [run_of_notMem once, set, if_pos output]

/-- Instructions without a renamed operand or target are left as they are. -/
theorem run_rename_of_fixed {f : Handle → Handle}
    (content : ∀ i ∈ is, ∀ k ∈ i.range.getD [], t'.content? (f k) = (t.content? k).map (.map f))
    (kinds : ∀ h, t'.kind? (f h) = t.kind? h) (uses : ∀ i ∈ is, ∀ k ∈ i.uses t, f k = k)
    (outputs : ∀ o ∈ Instruction.outputs is, f o = o) (s : Symbolic) :
    run t' read (is.map (.rename f)) s = run t read is s := by
  induction is generalizing s with
  | nil => rfl
  | cons i is ih =>
      have head := List.mem_cons_self (a := i) (l := is)
      have same : (i.rename f).uses t' = i.uses t := by
        rw [Instruction.uses_rename (content i head), List.map_congr_left (uses i head), List.map_id']
      have output : (i.rename f).output = i.output := by
        rw [Instruction.rename_output]
        cases h : i.output with
        | none => rfl
        | some o => rw [Option.map_some, outputs o (by simp [h])]
      rw [List.map_cons]
      simp only [run]
      rw [same, output, Instruction.term_rename (content i head) kinds]
      exact ih (fun j hj => content j (.tail i hj)) (fun j hj => uses j (.tail i hj))
        (fun o ho => outputs o (by simp [ho])) _

end Symbolic

/-- Reads literals as they are, and other variables as they were computed. -/
def Table.read (t : Table) (s : Symbolic) (h : Handle) : Term :=
  match t.literalInteger? h with
  | some n => .integer n
  | none => if (t.appearance? h).any (·.isLiteral) then .initial h else s h

theorem Table.read_congr {t : Table} {s s' : Symbolic} {h : Handle} (same : s h = s' h) :
    t.read s h = t.read s' h := by
  rw [read, read, same]

theorem Table.read_of_plain {t : Table} {h : Handle}
    (plain : ∀ a, t.appearance? h = some a → a.isLiteral = false) (s : Symbolic) :
    t.read s h = s h := by
  have word : t.literalInteger? h = none := by
    rw [Option.eq_none_iff_forall_ne_some]
    intro n hn
    obtain ⟨a, ha, literal, -⟩ := literalInteger?_eq_some hn
    simp [plain a ha] at literal
  have other : (t.appearance? h).any (·.isLiteral) = false := by
    cases ha : t.appearance? h with
    | none => rfl
    | some a => exact plain a ha
  rw [read, word, other]
  rfl

namespace Symbolic

variable {t : Table} {is : List Instruction}

/-- A run depends on what its instructions read, and on nothing else. -/
theorem run_agree {p : Handle → Prop} {s s' : Symbolic} (start : ∀ h, p h → s h = s' h)
    (reads : ∀ i ∈ is, ∀ k ∈ i.uses t, p k) :
    ∀ h, p h → run t t.read is s h = run t t.read is s' h := by
  induction is generalizing s s' with
  | nil => exact start
  | cons i is ih =>
      refine ih (fun h hp => ?_) fun j hj => reads j (.tail i hj)
      have operands : (i.uses t).map (t.read s) = (i.uses t).map (t.read s') :=
        List.map_congr_left fun k hk => Table.read_congr (start k (reads i List.mem_cons_self k hk))
      rw [set, set, operands, start h hp]

/-- A variable that is written once, from operands that are not written any more, holds in the end
the term for what the operands hold in the end. -/
theorem run_settled {done rest : List Instruction} {i : Instruction} {o : Handle} {s : Symbolic}
    (output : i.output = some o) (once : o ∉ Instruction.outputs rest)
    (unwritten : ∀ k ∈ i.uses t, k ∉ Instruction.outputs (i :: rest)) :
    run t t.read (done ++ i :: rest) s o =
      i.term t ((i.uses t).map (t.read (run t t.read (done ++ i :: rest) s))) := by
  rw [run_of_split output once]
  congr 1
  refine List.map_congr_left fun k hk => Table.read_congr ?_
  rw [run_append, run_of_notMem (unwritten k hk)]

/-- A way to read operands that looks through variables of the user only, and only at such
variables. -/
structure Reads (read : Symbolic → Handle → Term) (d : Draft) : Prop where
  user : ∀ h, d.IsUser h → ∀ s s', (∀ u, d.IsUser u → s u = s' u) → read s h = read s' h
  temporary : ∀ h, d.workspace.table.IsTemporary h →
    (∀ a, d.workspace.table.appearance? h = some a → a.isLiteral = false) → ∀ s, read s h = s h

theorem Reads.renamed {read : Symbolic → Handle → Term} {d d' : Draft} {f : Handle → Handle}
    (reads : Reads read d) (renamed : d.RenamedBy f d') : Reads read d' where
  user h user s s' same :=
    reads.user h ((renamed.isUser h).mp user) s s' fun u hu => same u ((renamed.isUser u).mpr hu)
  temporary h temporary plain := by
    rw [renamed.isTemporary] at temporary
    rw [renamed.appearance?] at plain
    exact reads.temporary h temporary plain

/-- The second state holds, under the new names, what is live in the first one. All variables of
the user count as live, since texts may read them. -/
structure Matches (f : Handle → Handle) (d : Draft) (is : List Instruction) (s s' : Symbolic) :
    Prop where
  user : ∀ u, d.IsUser u → s' u = s u
  live : ∀ h, d.workspace.table.IsTemporary h → Live d.workspace.table d.IsUser is h → s' (f h) = s h

end Symbolic

namespace Draft

variable {d d' : Draft} {f : Handle → Handle} {read : Symbolic → Handle → Term}

open Symbolic (Reads Matches)

/-- An operand is read the same under both names. -/
theorem SharedBy.read_operand (shared : d.SharedBy f d') (sound : d.Sound) (reads : Reads read d)
    {i : Instruction} {is : List Instruction} (hi : i ∈ d.program.instructions) {s s' : Symbolic}
    (m : Matches f d (i :: is) s s') {k : Handle} (hk : k ∈ i.uses d.workspace.table) :
    read s' (f k) = read s k := by
  by_cases temporary : d.workspace.table.IsTemporary k
  · have written := sound.mem_outputs hi (Instruction.mem_mentions_of_mem_uses hk) temporary
    have plain (a : Appearance) := sound.plain k written a temporary
    have moved : d.workspace.table.IsTemporary (f k) :=
      by_contra fun user => shared.within k user temporary
    rw [reads.temporary k temporary plain, reads.temporary (f k) moved]
    · exact m.live k temporary (.inl hk)
    · rwa [shared.merges.alike]
  · rw [shared.fixed k temporary]
    exact reads.user k temporary s' s m.user

/-- One instruction under both names. -/
theorem SharedBy.matches_step (shared : d.SharedBy f d') (sound : d.Sound) (reads : Reads read d)
    {i : Instruction} {is : List Instruction} (hi : i ∈ d.program.instructions)
    (clear : Clear f d.workspace.table d.IsUser (i :: is)) {s s' : Symbolic}
    (m : Matches f d (i :: is) s s') :
    Matches f d is
      (s.set i.output (i.term d.workspace.table ((i.uses d.workspace.table).map (read s))))
      (s'.set (i.rename f).output ((i.rename f).term d'.workspace.table
        (((i.rename f).uses d'.workspace.table).map (read s')))) := by
  have content (k : Handle) (hk : k ∈ i.range.getD []) :=
    shared.renamed.content? shared.merges.keeps (List.mem_flatMap.mpr ⟨i, hi, hk⟩)
  have kinds (h : Handle) : d'.workspace.table.kind? (f h) = d.workspace.table.kind? h :=
    (shared.renamed.kind? (f h)).trans (shared.merges.kind? h)
  have operands : (((i.rename f).uses d'.workspace.table).map (read s')) =
      (i.uses d.workspace.table).map (read s) := by
    rw [Instruction.uses_rename content, List.map_map]
    exact List.map_congr_left fun k hk => shared.read_operand sound reads hi m hk
  rw [operands, Instruction.term_rename content kinds, Instruction.rename_output]
  constructor
  · intro u user
    have same : i.output.map f = some u ↔ i.output = some u := by
      rw [Option.map_eq_some_iff]
      constructor
      · rintro ⟨w, hw, moved⟩
        rw [hw, ← moved, shared.fixed w (shared.within w (moved ▸ user))]
      · intro hu
        exact ⟨u, hu, shared.fixed u user⟩
    simp only [Symbolic.set, same]
    rw [m.user u user]
  · intro h temporary live
    have same : i.output.map f = some (f h) ↔ i.output = some h := by
      rw [Option.map_eq_some_iff]
      constructor
      · rintro ⟨w, hw, moved⟩
        rw [hw, (clear [] i is rfl w hw).1 h live moved.symm]
      · intro hh
        exact ⟨h, hh, rfl⟩
    simp only [Symbolic.set, same]
    split
    · rfl
    · next other => exact m.live h temporary (.inr ⟨other, live⟩)

theorem SharedBy.matches_run (shared : d.SharedBy f d') (sound : d.Sound) (reads : Reads read d)
    {is : List Instruction} (inside : is ⊆ d.program.instructions)
    (clear : Clear f d.workspace.table d.IsUser is) {s s' : Symbolic} (m : Matches f d is s s') :
    Matches f d [] (Symbolic.run d.workspace.table read is s)
      (Symbolic.run d'.workspace.table read (is.map (.rename f)) s') := by
  induction is generalizing s s' with
  | nil => exact m
  | cons i is ih =>
      have hi := inside List.mem_cons_self
      exact ih (fun j hj => inside (.tail i hj)) clear.tail
        (shared.matches_step sound reads hi clear m)

/-- Sharing storage keeps the terms of the variables of the user. -/
theorem Shared.run_eq (shared : Shared d d') (sound : d.Sound) (reads : Reads read d) {u : Handle}
    (user : d.IsUser u) (s : Symbolic) :
    Symbolic.run d'.workspace.table read d'.program.instructions s u =
      Symbolic.run d.workspace.table read d.program.instructions s u := by
  induction shared with
  | refl d => rfl
  | @step d d₁ d' f first rest ih =>
      rw [ih (first.sound sound) (reads.renamed first.renamed) ((first.renamed.isUser u).mpr user),
        first.renamed.instructions]
      refine (first.matches_run sound reads (List.Subset.refl _) first.clear ⟨fun _ _ => rfl, ?_⟩).user
        u user
      exact fun h temporary live => absurd live (sound.opened h temporary)

end Draft
end MatrixCode
