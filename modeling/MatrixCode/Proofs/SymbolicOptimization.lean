import MatrixCode.Proofs.Numerals
import MatrixCode.Proofs.Scoping

/-!
The optimizer in symbolic runs. Folding by writing takes instructions from their place and puts them
where their outputs are read; dropping the final copy and sharing storage rename variables. None of
this changes the term that the target of an equation gets in the end, as long as only integer
literals have texts that read as whole numbers.
-/

namespace MatrixCode

/-- The output of the instruction was a temporary, and has become a text. -/
def Instruction.becameText (t t' : Table) (i : Instruction) : Bool :=
  i.output.any fun o => t.IsTemporary o ∧ ¬t'.IsTemporary o

theorem Instruction.becameText_iff {t t' : Table} {i : Instruction} :
    i.becameText t t' ↔ ∃ o, i.output = some o ∧ t.IsTemporary o ∧ ¬t'.IsTemporary o := by
  simp [becameText, Option.any_eq_true]

theorem Instruction.eq_of_output {is : List Instruction} (once : (outputs is).Nodup) {i j : Instruction}
    (hi : i ∈ is) (hj : j ∈ is) {o : Handle} (output : i.output = some o) (again : j.output = some o) :
    i = j := by
  induction is with
  | nil => cases hi
  | cons a is ih =>
      have head (h : a.output = some o) : o ∉ outputs is := by
        simp only [outputs_cons, h, Option.toList_some, List.singleton_append, List.nodup_cons] at once
        exact once.1
      rcases List.mem_cons.mp hi with rfl | left <;> rcases List.mem_cons.mp hj with rfl | right
      · rfl
      · exact absurd (mem_outputs.mpr ⟨j, right, again⟩) (head output)
      · exact absurd (mem_outputs.mpr ⟨i, left, output⟩) (head again)
      · rw [outputs_cons] at once
        exact ih (List.nodup_append.mp once).2.1 left right

namespace Symbolic

/-- Reads a variable after the given instructions. -/
def readAfter (t : Table) (js : List Instruction) (s : Symbolic) (h : Handle) : Term :=
  t.read (run t t.read js s) h

/-- What it takes to carry out some instructions of a program only when their outputs are read:
variables are written once and not read before, and these instructions read none of the outputs of
the others. -/
structure Deferrable (t : Table) (p : Instruction → Bool) (is : List Instruction) : Prop where
  once : (Instruction.outputs is).Nodup
  before : ∀ done i rest, is = done ++ i :: rest → ∀ k ∈ i.uses t, k ∉ Instruction.outputs (i :: rest)
  apart : ∀ i ∈ is, p i → ∀ k ∈ i.uses t, ∀ j ∈ is, p j = false → j.output ≠ some k

namespace Deferrable

variable {t : Table} {p : Instruction → Bool} {is : List Instruction}

/-- What a deferred instruction gives its output in the end. -/
theorem settled (d : Deferrable t p is) {done rest : List Instruction} {i : Instruction} {o : Handle}
    (split : is = done ++ i :: rest) (hp : p i) (output : i.output = some o)
    (once : o ∉ Instruction.outputs rest) (s : Symbolic) :
    run t t.read (is.filter p) s o = i.term t ((i.uses t).map (readAfter t (is.filter p) s)) := by
  have later {k : Handle} (hk : k ∈ Instruction.outputs (rest.filter p)) :
      k ∈ Instruction.outputs rest := ((List.filter_sublist).filterMap _).subset hk
  have unwritten (k : Handle) (hk : k ∈ i.uses t) : k ∉ Instruction.outputs (i :: rest.filter p) := by
    intro hm
    apply d.before done i rest split k hk
    rw [Instruction.outputs_cons, List.mem_append] at hm ⊢
    exact hm.imp_right later
  have parted : is.filter p = done.filter p ++ i :: rest.filter p := by simp [split, hp]
  rw [parted]
  exact run_settled output (fun hm => once (later hm)) unwritten

/-- One instruction, at its place or deferred. -/
theorem step (d : Deferrable t p is) {done rest : List Instruction} {i : Instruction}
    (split : is = done ++ i :: rest) {s s' : Symbolic}
    (same : ∀ h, h ∉ Instruction.outputs (i :: rest) → run t t.read (is.filter p) s' h = s h) :
    ∀ h, h ∉ Instruction.outputs rest →
      run t t.read (is.filter p) (run t (readAfter t (is.filter p)) ([i].filter (! p ·)) s') h =
        s.set i.output (i.term t ((i.uses t).map (t.read s))) h := by
  have hi : i ∈ is := by simp [split]
  have before := d.before done i rest split
  have operands : (i.uses t).map (readAfter t (is.filter p) s') = (i.uses t).map (t.read s) :=
    List.map_congr_left fun k hk => Table.read_congr (same k (before k hk))
  intro h hh
  have other (ho : i.output ≠ some h) : run t t.read (is.filter p) s' h = s h := by
    apply same
    simpa using ⟨fun written => ho written, hh⟩
  cases hp : p i with
  | false =>
      simp only [List.filter_cons, hp, Bool.not_false, if_true, List.filter_nil, run, operands]
      by_cases written : i.output = some h
      · have unwritten : h ∉ Instruction.outputs (is.filter p) := by
          intro hm
          obtain ⟨j, hj, again⟩ := Instruction.mem_outputs.mp hm
          obtain ⟨hj, picked⟩ := List.mem_filter.mp hj
          obtain rfl := Instruction.eq_of_output d.once hi hj written again
          simp [hp] at picked
        rw [run_of_notMem unwritten, set, set, if_pos written, if_pos written]
      · -- the deferred instructions do not read what is written here
        have apart (j : Instruction) (hj : j ∈ is.filter p) (k : Handle) (hk : k ∈ j.uses t) :
            i.output ≠ some k := by
          obtain ⟨hj, picked⟩ := List.mem_filter.mp hj
          exact d.apart j hj picked k hk i hi hp
        have start (x : Term) (k : Handle) (hk : i.output ≠ some k) : s'.set i.output x k = s' k :=
          if_neg hk
        rw [run_agree (start _) apart h written, other written, set, if_neg written]
  | true =>
      simp only [List.filter_cons, hp, Bool.not_true, Bool.false_eq_true, if_false, List.filter_nil, run]
      by_cases written : i.output = some h
      · rw [d.settled split hp written hh, set, if_pos written, operands]
      · rw [other written, set, if_neg written]

/-- A run with some instructions deferred, and then all of them carried out. -/
theorem run_eq (d : Deferrable t p is) (s : Symbolic) {done rest : List Instruction}
    (split : is = done ++ rest) : ∀ h, h ∉ Instruction.outputs rest →
      run t t.read (is.filter p) (run t (readAfter t (is.filter p)) (done.filter (! p ·)) s) h =
        run t t.read done s h := by
  -- from the right, so that the part that was run grows at its end
  induction done using List.reverseRecOn generalizing rest with
  | nil =>
      intro h hh
      refine run_of_notMem fun hm => hh ?_
      rw [split] at hm
      exact ((List.filter_sublist).filterMap _).subset hm
  | append_singleton done i ih =>
      have whole : is = done ++ i :: rest := by simp [split]
      rw [List.filter_append, run_append, run_append]
      exact d.step whole (ih whole)

end Deferrable
end Symbolic

namespace Shortens

variable {folds : Table → Instruction → Handle → ScalarText → Prop} {t t' : Table}
  {is' done rest : List Instruction} {i : Instruction}

theorem of_append (r : Shortens folds t (done ++ rest) is' t') :
    ∃ u done' rest', Shortens folds t done done' u ∧ Shortens folds u rest rest' t' := by
  induction done generalizing t is' with
  | nil => exact ⟨t, [], is', .nil t, r⟩
  | cons i done ih =>
      cases r with
      | keep _ r =>
          obtain ⟨u, done', rest', first, second⟩ := ih r
          exact ⟨u, i :: done', rest', .keep i first, second⟩
      | fold computes text r =>
          obtain ⟨u, done', rest', first, second⟩ := ih r
          exact ⟨u, done', rest', .fold computes text first, second⟩

/-- How an instruction became a text: in a table that only the instructions before it had changed, and
from then on its operands and its output were left as they were. -/
theorem of_becameText (r : Shortens folds t (done ++ i :: rest) is' t')
    (once : (Instruction.outputs (done ++ i :: rest)).Nodup) (became : i.becameText t t') :
    ∃ o u e, (∃ done', Shortens folds t done done' u) ∧ i.Computes u o ∧ folds u i o e ∧
      t'.get? o = (u.get? o).map (·.foldInto e.text e.precedence) ∧
      ∀ h, ¬u.IsTemporary h → t'.get? h = u.get? h := by
  obtain ⟨o, output, before, after⟩ := Instruction.becameText_iff.mp became
  obtain ⟨u, done', rest', first, second⟩ := r.of_append
  rw [Instruction.outputs_append, Instruction.outputs_cons, output, Option.toList_some,
    List.singleton_append] at once
  obtain ⟨-, tail, apart⟩ := List.nodup_append.mp once
  cases second with
  | keep _ second =>
      have same : t'.get? o = t.get? o := by
        rw [second.get? (.inr (List.nodup_cons.mp tail).1),
          first.get? (.inr fun hm => apart o hm o List.mem_cons_self rfl)]
      rw [Table.IsTemporary, same] at after
      exact absurd before after
  | @fold _ _ _ _ _ o' e computes text second =>
      obtain rfl := Option.some.inj (output.symm.trans computes.output)
      refine ⟨o, u, e, ⟨done', first⟩, computes, text, ?_, fun h user => ?_⟩
      · rw [second.get? (.inl (u.not_isTemporary_foldInto o _ _)), Table.get?_modify, if_pos rfl]
      · have other : h ≠ o := by
          rintro rfl
          exact user computes.temporary
        have same : (u.modify o (·.foldInto e.text e.precedence)).get? h = u.get? h := by
          rw [Table.get?_modify, if_neg other]
        rw [second.get? (.inl (by rwa [Table.IsTemporary, same])), same]

/-- What is left are the instructions whose outputs did not become texts. -/
theorem eq_filter {u : Table} {is : List Instruction} (r : Shortens folds u is is' t')
    (once : (Instruction.outputs is).Nodup)
    (unchanged : ∀ o ∈ Instruction.outputs is, u.get? o = t.get? o) :
    is' = is.filter (! ·.becameText t t') := by
  induction r with
  | nil _ => rfl
  | @keep u t' is is' i r ih =>
      rw [Instruction.outputs_cons] at once unchanged
      obtain ⟨-, tail, apart⟩ := List.nodup_append.mp once
      have left : i.becameText t t' = false := by
        rw [Bool.eq_false_iff]
        intro became
        obtain ⟨o, output, before, after⟩ := Instruction.becameText_iff.mp became
        have mem : o ∈ i.output.toList := by simp [output]
        have same : t'.get? o = t.get? o := by
          rw [r.get? (.inr fun hm => apart o mem o hm rfl),
            unchanged o (List.mem_append_left _ mem)]
        rw [Table.IsTemporary, same] at after
        exact after before
      rw [List.filter_cons, left, ih tail fun o ho => unchanged o (List.mem_append_right _ ho)]
      rfl
  | @fold u t' is is' i o e computes text r ih =>
      rw [Instruction.outputs_cons, computes.output, Option.toList_some, List.singleton_append] at once
      obtain ⟨fresh, tail⟩ := List.nodup_cons.mp once
      have out : i.becameText t t' := by
        refine Instruction.becameText_iff.mpr ⟨o, computes.output, ?_, fun temporary => ?_⟩
        · rw [Table.IsTemporary, ← unchanged o (by simp [computes.output])]
          exact computes.temporary
        · exact u.not_isTemporary_foldInto o _ _ (r.isTemporary temporary)
      rw [List.filter_cons, out]
      refine ih tail fun k hk => ?_
      have other : k ≠ o := by
        rintro rfl
        exact fresh hk
      rw [Table.get?_modify, if_neg other, unchanged k (by simp [hk])]

end Shortens

/-- An operation on numbers is a number when it is carried out in the text, too. -/
theorem Instruction.term_of_number {t : Table} {i : Instruction} (other : i.primitive ≠ .copy)
    {arguments : List Term} {words : List Int64} {n : Int64}
    (numbers : arguments.mapM Term.integer? = some words) (value : i.number? words = some n) :
    i.term t arguments = .integer n := by
  have hands : i.handsOn t = false := by simp [handsOn, isPlainCopy, other]
  rw [term, hands, numbers, Option.bind_some, value]
  rfl

/-- A copy within a kind hands on the term of its source. -/
theorem Instruction.Copies.term {t : Table} {i : Instruction} {source target : Handle}
    (copies : i.Copies t source target) (plain : i.isPlainCopy)
    (kind : t.kind? source = t.kind? target) (read : Handle → Term) :
    i.term t ((i.uses t).map read) = read source := by
  have uses : i.uses t = [source] := by
    obtain ⟨-, -, form, -, -, -, rfl⟩ := copies.form
    simp [Instruction.uses, sources, items, Instruction.isPartial, Construction.copying]
  have hands : i.handsOn t := by simp [handsOn, plain, copies.inputs, copies.output, kind]
  rw [uses, Instruction.term, if_pos hands]
  rfl

namespace Draft

theorem Built.fits {d : Draft} (built : d.Built) : d.Fits := by
  induction built with
  | start w => exact fun i hi => by cases hi
  | extend built w ext ih => exact fun i hi => (ih i hi).mono fun _ _ => ext.kind?
  | @request d d' built r h ran ih =>
      have extended := Drafting.extended_apply r d
      rw [ran] at extended
      exact extended.fits ih
  | @assign d d' built source target ran ih =>
      have extended := Drafting.extended_assign source target d
      rw [ran] at extended
      exact extended.fits ih
  | @assignRange d d' built source target range ran ih =>
      have extended := Drafting.extended_assignRange source target range d
      rw [ran] at extended
      exact extended.fits ih

end Draft

/-- Reads what became a text through the instructions that it stands for. A text that is a number is
read as the number. -/
def Table.readFolded (t t' : Table) (js : List Instruction) (s : Symbolic) (h : Handle) : Term :=
  match t'.literalInteger? h with
  | some n => .integer n
  | none => Symbolic.readAfter t js s h

namespace Draft

/-- The instructions of a draft whose outputs are texts in another one. -/
def replaced (d d' : Draft) : List Instruction :=
  d.program.instructions.filter (·.becameText d.workspace.table d'.workspace.table)

namespace SingleEquation

variable {d : Draft} {body body' : List Instruction} {last : Instruction} {target : Handle}
  {policy : Policy} {w : Writer} {t' : Table} {done rest : List Instruction} {i : Instruction}

/-- What an instruction of the body reads is not written by it, nor later. -/
theorem unwritten (single : d.SingleEquation body last target) (split : body = done ++ i :: rest)
    {k : Handle} (hk : k ∈ i.uses d.workspace.table) : k ∉ Instruction.outputs (i :: rest) := by
  intro later
  have hi : i ∈ body := by simp [split]
  have temporary : d.workspace.table.IsTemporary k := by
    apply single.isTemporary_of_mem_outputs
    rw [split, Instruction.outputs_append]
    exact List.mem_append_right _ later
  have whole : i.isPartial = false := by simp [Instruction.isPartial, single.computes i hi]
  rw [Instruction.uses, whole, if_neg Bool.false_ne_true, List.append_nil] at hk
  have earlier := single.reads done i (rest ++ [last]) (by simp [single.split, split]) k hk temporary
  have once := single.nodup_outputs
  rw [split, Instruction.outputs_append] at once
  exact List.disjoint_of_nodup_append once earlier later

section Folded

variable (single : d.SingleEquation body last target)
  (shorter : Shortens (Folding.Folds policy w.fold) d.workspace.table body body' t')

include single shorter

/-- What is read by an instruction that became a text. -/
theorem of_becameText (split : body = done ++ i :: rest) (became : i.becameText d.workspace.table t') :
    ∃ o u e, (∃ done', Shortens (Folding.Folds policy w.fold) d.workspace.table done done' u) ∧
      i.Computes u o ∧ Folding.Folds policy w.fold u i o e ∧
      t'.get? o = (u.get? o).map (·.foldInto e.text e.precedence) ∧
      i.uses d.workspace.table = i.inputs ∧
      ∀ k ∈ i.inputs, t'.get? k = u.get? k ∧ ∃ v, u.get? k = some v ∧ v.temporary = false := by
  have once := single.nodup_outputs
  subst split
  obtain ⟨o, u, e, ⟨done', first⟩, computes, folds, entry, kept⟩ := shorter.of_becameText once became
  refine ⟨o, u, e, ⟨done', first⟩, computes, folds, entry, ?_, fun k hk => ?_⟩
  · have whole : i.isPartial = false := by simp [Instruction.isPartial, computes.range]
    rw [Instruction.uses, whole, Instruction.Amounts.sources_eq computes.range computes.blocks]
    simp
  · have plain (v : Variable) (hv : u.get? k = some v) (temporary : v.temporary = true) :
        v.constant = false := by
      rw [first.get?_of_isTemporary ⟨v, hv, temporary⟩] at hv
      exact single.constant_eq_false (by simp [single.split])
        (Instruction.mem_sources_of_mem_inputs hk) hv temporary
    obtain ⟨v, hv, user, -⟩ := folds.user hk plain
    refine ⟨kept k ?_, v, hv, user⟩
    rintro ⟨v', hv', temporary⟩
    obtain rfl := Option.some.inj (hv.symm.trans hv')
    simp [user] at temporary

theorem deferrable : Symbolic.Deferrable d.workspace.table (·.becameText d.workspace.table t') body where
  once := single.nodup_outputs
  before _ _ _ split _ hk := single.unwritten split hk
  apart i hi became k hk j hj left output := by
    obtain ⟨done, rest, split⟩ := List.append_of_mem hi
    obtain ⟨o, u, e, -, -, -, -, uses, operands⟩ := single.of_becameText shorter split became
    obtain ⟨same, v, hv, user⟩ := operands k (uses ▸ hk)
    have gone : j.becameText d.workspace.table t' := by
      refine Instruction.becameText_iff.mpr ⟨k, output, ?_, ?_⟩
      · exact single.isTemporary_of_mem_outputs (Instruction.mem_outputs.mpr ⟨j, hj, output⟩)
      · rintro ⟨v', hv', temporary⟩
        obtain rfl := Option.some.inj (hv.symm.trans (same.symm.trans hv'))
        simp [user] at temporary
    simp [left] at gone

/-- An instruction became a number only if its operands are numbers, and it has this value. -/
theorem number_of_becameText (numerals : d.workspace.table.NumeralsLiteral)
    (split : body = done ++ i :: rest) (became : i.becameText d.workspace.table t') {o : Handle}
    (output : i.output = some o) {n : Int64} (number : t'.literalInteger? o = some n) :
    ∃ words, i.inputs.mapM t'.literalInteger? = some words ∧ i.number? words = some n := by
  obtain ⟨o', u, e, ⟨done', first⟩, computes, folds, entry, -, operands⟩ :=
    single.of_becameText shorter split became
  obtain rfl := Option.some.inj (output.symm.trans computes.output)
  have hi : i ∈ body := by simp [split]
  have inside {j : Instruction} (hj : j ∈ done) : j ∈ body := by simp [split, hj]
  have fits {j : Instruction} (hj : j ∈ body) : j.Fits d.workspace.table :=
    single.built.fits j (by simp [single.split, hj])
  have numerals' : u.NumeralsLiteral := by
    refine first.numeralsLiteral (fun j hj => fits (inside hj))
      (fun j hj => single.computes j (inside hj)) (fun j hj k hk v hv temporary => ?_) numerals
    exact single.constant_eq_false (by simp [single.split, inside hj])
      (Instruction.mem_sources_of_mem_inputs hk) hv temporary
  obtain ⟨v, hv, -⟩ := computes.temporary
  have word : (v.foldInto e.text e.precedence).literalInteger? = some n := by
    simpa [Table.literalInteger?, Table.appearance?, entry, hv, Variable.appearance] using number
  have kind : (v.foldInto e.text e.precedence).kind = .integer := Variable.kind_of_literalInteger? word
  obtain ⟨words, n', mapped, value, same⟩ := folds.number numerals'
    ((fits hi).mono fun h kind => (first.kind? h).trans) computes (single.computes i hi)
    (fun k hk => (operands k hk).2) hv kind (Variable.whole?_of_literalInteger? word)
  obtain rfl := Int64.toInt_inj.mp same
  refine ⟨words, ?_, value⟩
  rw [← mapped]
  refine Outcome.mapM_congr fun k hk => ?_
  rw [Table.literalInteger?, Table.literalInteger?, Table.appearance?_congr (operands k hk).1]

/-- A text that is a number has the term of the instruction that it stands for. -/
theorem readAfter_eq_integer (numerals : d.workspace.table.NumeralsLiteral) (s : Symbolic)
    (split : body = done ++ rest) {h : Handle} (hh : h ∉ Instruction.outputs rest) {n : Int64}
    (number : t'.literalInteger? h = some n) :
    Symbolic.readAfter d.workspace.table (body.filter (·.becameText d.workspace.table t')) s h =
      .integer n := by
  have unchanged {k : Handle} {m : Int64} (same : t'.get? k = d.workspace.table.get? k)
      (number : t'.literalInteger? k = some m) : d.workspace.table.literalInteger? k = some m := by
    rw [← number, Table.literalInteger?, Table.literalInteger?, Table.appearance?_congr same]
  -- the operands of an instruction are written before it, so they come first
  induction done using List.reverseRecOn generalizing rest h n with
  | nil =>
      rw [Symbolic.readAfter, Table.read, unchanged (shorter.get? (.inr (by rwa [split]))) number]
  | append_singleton done i ih =>
      have whole : body = done ++ i :: rest := by simp [split]
      by_cases output : i.output = some h
      · have hi : i ∈ body := by simp [whole]
        have temporary := single.isTemporary_of_mem_outputs (Instruction.mem_outputs.mpr ⟨i, hi, output⟩)
        by_cases became : i.becameText d.workspace.table t'
        · obtain ⟨words, mapped, value⟩ :=
            single.number_of_becameText shorter numerals whole became output number
          obtain ⟨-, -, -, -, -, -, -, uses, -⟩ := single.of_becameText shorter whole became
          have plain (a : Appearance) (ha : d.workspace.table.appearance? h = some a) :
              a.isLiteral = false := by
            obtain ⟨v, hv, literal, -⟩ := single.made (by simp [single.split, whole, output]) temporary
            obtain rfl : v.appearance = a := by simpa [Table.appearance?, hv] using ha
            exact literal
          rw [Symbolic.readAfter, Table.read_of_plain plain,
            (single.deferrable shorter).settled whole became output hh]
          refine Instruction.term_of_number (single.computes i hi) ?_ value
          rw [uses, List.mapM_map, ← mapped]
          refine Outcome.mapM_congr fun k hk => ?_
          obtain ⟨m, hm⟩ := Option.isSome_iff_exists.mp (Outcome.isSome_of_mapM mapped k hk)
          rw [Function.comp_apply, ih whole (single.unwritten whole (uses ▸ hk)) hm, hm]
          rfl
        · have left : t'.IsTemporary h := by
            by_contra gone
            exact became (Instruction.becameText_iff.mpr ⟨h, output, temporary, gone⟩)
          rw [Symbolic.readAfter, Table.read, unchanged (shorter.get?_of_isTemporary left) number]
      · refine ih whole ?_ number
        simpa using ⟨output, hh⟩

/-- Reading what became texts is reading after the instructions that they stand for. -/
theorem readFolded_eq (numerals : d.workspace.table.NumeralsLiteral) :
    d.workspace.table.readFolded t' (body.filter (·.becameText d.workspace.table t')) =
      Symbolic.readAfter d.workspace.table (body.filter (·.becameText d.workspace.table t')) := by
  funext s h
  rw [Table.readFolded]
  split
  · next n number =>
      exact (single.readAfter_eq_integer shorter numerals s (List.append_nil body).symm (by simp)
        number).symm
  · rfl

/-- Folding by writing keeps the term of the target. -/
theorem run_folded (numerals : d.workspace.table.NumeralsLiteral) (s : Symbolic) :
    Symbolic.run t' (d.workspace.table.readFolded t' (body.filter (·.becameText d.workspace.table t')))
        (body' ++ [last]) s target =
      Symbolic.run d.workspace.table d.workspace.table.read (body ++ [last]) s target := by
  have deferrable := single.deferrable shorter
  have kept := shorter.eq_filter single.nodup_outputs fun o _ => rfl
  rw [single.readFolded_eq shorter numerals, Symbolic.run_congr shorter.content?,
    Symbolic.run_of_split single.output (by simp), Symbolic.run_of_split single.output (by simp), kept]
  congr 1
  refine List.map_congr_left fun k _ => Table.read_congr ?_
  exact deferrable.run_eq s (List.append_nil body).symm k (by simp)

end Folded

end SingleEquation

section Drop

variable {d : Draft} {body : List Instruction} {last : Instruction} {source target : Handle}
  {read : Symbolic → Handle → Term}

/-- The source of the final copy is written by one instruction, and not read up to it. -/
theorem Assigning.exists_source (a : d.Assigning body last target)
    (once : (Instruction.outputs body).Nodup)
    (ends : d.program.EndsInCopy d.workspace.table body last source target) :
    ∃ done i rest, body = done ++ i :: rest ∧ i.output = some source ∧
      source ∉ Instruction.outputs done ∧ source ∉ Instruction.outputs rest ∧
      ∀ j ∈ done ++ [i], source ∉ j.uses d.workspace.table := by
  have written := a.sound.mem_outputs (i := last) (by simp [a.split])
    (Instruction.mem_mentions_of_mem_sources ends.mem_sources) ends.temporary
  rw [a.split, Instruction.outputs_append, List.mem_append] at written
  have inside := written.resolve_right fun hm => ends.user <| by
    obtain rfl : target = source := by simpa [a.output, eq_comm] using hm
    exact ends.temporary
  obtain ⟨i, hi, output⟩ := Instruction.mem_outputs.mp inside
  obtain ⟨done, rest, split⟩ := List.append_of_mem hi
  have parts := once
  rw [split, Instruction.outputs_append, Instruction.outputs_cons, output, Option.toList_some,
    List.singleton_append] at parts
  obtain ⟨-, tail, apart⟩ := List.nodup_append.mp parts
  have fresh : source ∉ Instruction.outputs done := fun hm => apart source hm source List.mem_cons_self rfl
  have unread {l r : List Instruction} {j : Instruction} (parted : body = l ++ j :: r)
      (unwritten : source ∉ Instruction.outputs l) : source ∉ j.uses d.workspace.table := by
    intro used
    have live : Live d.workspace.table d.IsUser (l ++ (j :: (r ++ [last]))) source :=
      .of_notMem_outputs unwritten (.inl used)
    apply a.sound.opened source ends.temporary
    rwa [a.split, parted, List.append_assoc]
  refine ⟨done, i, rest, split, output, fresh, (List.nodup_cons.mp tail).1, fun j hj => ?_⟩
  rcases List.mem_append.mp hj with hj | hj
  · obtain ⟨l, r, rfl⟩ := List.append_of_mem hj
    refine unread (l := l) (r := r ++ i :: rest) (by simp [split]) fun hm => fresh ?_
    rw [Instruction.outputs_append]
    exact List.mem_append_left _ hm
  · obtain rfl := List.mem_singleton.mp hj
    exact unread split fresh

/-- Without its final copy a draft gives the target the same term. -/
theorem Assigning.run_drop (a : d.Assigning body last target) (once : (Instruction.outputs body).Nodup)
    (ends : d.program.EndsInCopy d.workspace.table body last source target)
    (reads : Symbolic.Reads read d) (s : Symbolic) :
    Symbolic.run (d.dropTrailingCopy source target).workspace.table read
        (d.dropTrailingCopy source target).program.instructions s target =
      Symbolic.run d.workspace.table read (body ++ [last]) s target := by
  have copies := a.copies_of_endsInCopy ends
  have renamed := renamedBy_drop copies
  have keeps : Table.Keeps (Handle.replace source target) d.workspace.table :=
    .replace ends.kind copies.kind_source
  have shorter : d.withoutLast.program.instructions = body := by simp [Draft.withoutLast, a.split]
  have content (i : Instruction) (hi : i ∈ body) (k : Handle) (hk : k ∈ i.range.getD []) :
      (d.dropTrailingCopy source target).workspace.table.content? (Handle.replace source target k) =
        (d.workspace.table.content? k).map (.map (Handle.replace source target)) :=
    renamed.content? keeps (List.mem_flatMap.mpr ⟨i, shorter ▸ hi, hk⟩)
  have kinds (h : Handle) : (d.dropTrailingCopy source target).workspace.table.kind?
      (Handle.replace source target h) = d.workspace.table.kind? h :=
    (renamed.kind? _).trans (keeps.kind? h)
  have fixed {k : Handle} (other : k ≠ source) : Handle.replace source target k = k := if_neg other
  obtain ⟨done, i, rest, split, output, fresh, later, unread⟩ := a.exists_source once ends
  have inside {j : Instruction} (hj : j ∈ done) : j ∈ body := by simp [split, hj]
  have hi : i ∈ body := by simp [split]
  have untouched : target ∉ Instruction.outputs (rest.map (.rename (Handle.replace source target))) := by
    rw [Instruction.outputs_map_rename]
    intro hm
    obtain ⟨o, ho, same⟩ := List.mem_map.mp hm
    have other : o ≠ source := fun h => later (h ▸ ho)
    rw [fixed other] at same
    exact a.apart (by rw [split, Instruction.outputs_append]; simp [← same, ho])
  have plain (b : Appearance) := a.sound.plain source (by simp [a.split, split, output]) b ends.temporary
  have same : (i.uses d.workspace.table).map (Handle.replace source target) = i.uses d.workspace.table := by
    rw [List.map_congr_left fun k hk => fixed ?_, List.map_id']
    rintro rfl
    exact unread i (by simp) hk
  have earlier : Symbolic.run (d.dropTrailingCopy source target).workspace.table read
      (done.map (.rename (Handle.replace source target))) s =
        Symbolic.run d.workspace.table read done s := by
    refine Symbolic.run_rename_of_fixed (fun j hj => content j (inside hj)) kinds
      (fun j hj k hk => fixed ?_) (fun o ho => fixed ?_) s
    · rintro rfl
      exact unread j (by simp [hj]) hk
    · rintro rfl
      exact fresh ho
  calc
    _ = i.term d.workspace.table ((i.uses d.workspace.table).map
          (read (Symbolic.run d.workspace.table read done s))) := by
      rw [renamed.instructions, shorter, split, List.map_append, List.map_cons,
        Symbolic.run_of_split (o := target) (by simp [output, Handle.replace]) untouched, earlier,
        Instruction.uses_rename (content i hi), same, Instruction.term_rename (content i hi) kinds]
    _ = read (Symbolic.run d.workspace.table read body s) source := by
      rw [reads.temporary source ends.temporary plain, split, Symbolic.run_of_split output later]
    _ = _ := by
      rw [Symbolic.run_of_split a.output (by simp), copies.term ends.isPlainCopy ends.kind]

end Drop

namespace SingleEquation

variable {d d' : Draft} {body body' : List Instruction} {last : Instruction} {target : Handle}
  {policy : Policy} {w : Writer}

/-- What became texts is read through variables that are no temporaries, and the others are read as
they are. -/
theorem reads_readAfter (single : d.SingleEquation body last target)
    (shorter : Shortens (Folding.Folds policy w.fold) d.workspace.table body body' d'.workspace.table) :
    Symbolic.Reads (Symbolic.readAfter d.workspace.table
      (body.filter (·.becameText d.workspace.table d'.workspace.table))) d' where
  user h user s s' same := by
    refine Table.read_congr (Symbolic.run_agree same (fun i hi k hk => ?_) h user)
    obtain ⟨hi, became⟩ := List.mem_filter.mp hi
    obtain ⟨done, rest, split⟩ := List.append_of_mem hi
    obtain ⟨o, u, e, -, -, -, -, uses, operands⟩ := single.of_becameText shorter split became
    obtain ⟨same, v, hv, plain⟩ := operands k (uses ▸ hk)
    rintro ⟨v', hv', temporary⟩
    obtain rfl := Option.some.inj (hv.symm.trans (same.symm.trans hv'))
    simp [plain] at temporary
  temporary h temporary plain s := by
    rw [Table.appearance?_congr (shorter.get?_of_isTemporary temporary)] at plain
    rw [Symbolic.readAfter, Table.read_of_plain plain, Symbolic.run_of_notMem]
    intro hm
    obtain ⟨i, hi, output⟩ := Instruction.mem_outputs.mp hm
    obtain ⟨o, output', -, after⟩ := Instruction.becameText_iff.mp (List.mem_filter.mp hi).2
    obtain rfl := Option.some.inj (output.symm.trans output')
    exact after temporary

/-- Sharing and renaming leave the texts, and what became one. -/
theorem readFolded_eq_of_sameBut (single : d.SingleEquation body last target) {d₁ : Draft}
    (shorter : Shortens (Folding.Folds policy w.fold) d.workspace.table body body' d₁.workspace.table)
    (numerals : d.workspace.table.NumeralsLiteral) (same : SameBut d₁ d') :
    d.workspace.table.readFolded d'.workspace.table (d.replaced d') =
      Symbolic.readAfter d.workspace.table
        (body.filter (·.becameText d.workspace.table d₁.workspace.table)) := by
  have temporaries (h : Handle) :
      d'.workspace.table.IsTemporary h ↔ d₁.workspace.table.IsTemporary h := by
    obtain ⟨f, entry⟩ := same h
    rw [Table.IsTemporary, Table.IsTemporary, entry]
    simp
  have numbers (h : Handle) :
      d'.workspace.table.literalInteger? h = d₁.workspace.table.literalInteger? h := by
    obtain ⟨f, entry⟩ := same h
    rw [Table.literalInteger?, Table.literalInteger?, Table.appearance?, Table.appearance?, entry]
    cases d₁.workspace.table.get? h <;> simp
  have became (i : Instruction) : i.becameText d.workspace.table d'.workspace.table =
      i.becameText d.workspace.table d₁.workspace.table := by
    simp only [Instruction.becameText, temporaries]
  have assigned : last.becameText d.workspace.table d₁.workspace.table = false := by
    rw [Bool.eq_false_iff]
    intro gone
    obtain ⟨o, output, temporary, -⟩ := Instruction.becameText_iff.mp gone
    obtain rfl := Option.some.inj (single.output.symm.trans output)
    exact single.user temporary
  have replaced : d.replaced d' =
      body.filter (·.becameText d.workspace.table d₁.workspace.table) := by
    rw [Draft.replaced, single.split]
    simp [became, assigned]
  rw [← single.readFolded_eq shorter numerals, replaced]
  funext s h
  rw [Table.readFolded, Table.readFolded, numbers]

/-- The optimizer keeps the term that the target of an equation gets, when it folds by writing and no
integer but a literal has a text that reads as a whole number. -/
theorem symbolic_optimize (single : d.SingleEquation body last target)
    (numerals : d.workspace.table.NumeralsLiteral) {report : Report}
    (ran : Yields (Drafting.optimize policy w.fold) d report d') (s : Symbolic) :
    Symbolic.run d'.workspace.table
        (d.workspace.table.readFolded d'.workspace.table (d.replaced d')) d'.program.instructions s
        target =
      Symbolic.run d.workspace.table d.workspace.table.read d.program.instructions s target := by
  obtain ⟨body', shorter, assigning, passes⟩ := single.passes_of_optimize ran
  have once := single.nodup_outputs.sublist (shorter.sublist.filterMap _)
  have reads := single.reads_readAfter shorter
  have folded := single.run_folded shorter numerals s
  rw [single.readFolded_eq shorter numerals, ← single.split] at folded
  rcases passes with shared | ⟨source, ends, shared⟩
  · rw [single.readFolded_eq_of_sameBut shorter numerals shared.sameBut,
      shared.run_eq assigning.sound reads assigning.user, assigning.split, folded]
  · have renamed := renamedBy_drop (assigning.copies_of_endsInCopy ends)
    have user := (renamed.isUser target).mpr assigning.user
    have reads' : Symbolic.Reads _ (d.foldedBy policy w.fold).withoutLast := ⟨reads.user, reads.temporary⟩
    rw [single.readFolded_eq_of_sameBut shorter numerals (renamed.sameBut.trans shared.sameBut),
      shared.run_eq (assigning.sound_drop ends) (reads'.renamed renamed) user,
      assigning.run_drop once ends reads, folded]

end SingleEquation
end Draft

theorem Draft.symbolic_rescaling : ∃ report d',
    Yields (Drafting.optimize .standard Writer.standard.fold) rescaling report d' ∧
      report.trailingCopyRemoved ∧
      Symbolic.run d'.workspace.table
          (rescaling.workspace.table.readFolded d'.workspace.table (rescaling.replaced d'))
          d'.program.instructions .initial ⟨2⟩ =
        Symbolic.run rescaling.workspace.table rescaling.workspace.table.read
          rescaling.program.instructions .initial ⟨2⟩ := by
  obtain ⟨body, last, single⟩ := singleEquation_rescaling
  have removed : ((Drafting.optimize .standard Writer.standard.fold).run.run
      rescaling).1.toOption.any (·.trailingCopyRemoved) := by decide +kernel
  obtain ⟨report, found, copied⟩ := (Option.any_eq_true _ _).mp removed
  have ran := yields_of_toOption found
  have numerals : rescaling.workspace.table.NumeralsLiteral := .of_entries (by decide +kernel)
  exact ⟨report, _, ran, copied, single.symbolic_optimize numerals ran .initial⟩

/-- The equation `x = max n + 1` in two integers. -/
def Drafting.successor : Drafting Unit := do
  let greatest ← apply (Request.unary .maximum ⟨2⟩).perform
  let sum ← apply (Request.binary .add greatest ⟨1⟩).perform
  assign sum ⟨3⟩

/-- The draft of the equation, where the name of the integer is a numeral. -/
def Draft.successor : Draft := ofEquation .successor (.ofIntegers ["5", "x"])

/-- A variable that is called `5` is taken for the number. -/
theorem Draft.numeral_successor : ∃ body last report d',
    successor.SingleEquation body last ⟨3⟩ ∧
      Yields (Drafting.optimize .standard Writer.standard.fold) successor report d' ∧
      Symbolic.run d'.workspace.table
          (successor.workspace.table.readFolded d'.workspace.table (successor.replaced d'))
          d'.program.instructions .initial ⟨3⟩ ≠
        Symbolic.run successor.workspace.table successor.workspace.table.read
          successor.program.instructions .initial ⟨3⟩ := by
  have made : Yields Drafting.successor ⟨.ofIntegers ["5", "x"], .empty⟩ () successor :=
    yields_of_toOption (by decide +kernel)
  obtain ⟨_, _, first, made⟩ := made.of_bind
  obtain ⟨_, _, second, assigned⟩ := made.of_bind
  obtain ⟨report, ran⟩ := exists_yields
    (x := Drafting.optimize .standard Writer.standard.fold) (s := successor) (by decide +kernel)
  refine ⟨successor.program.instructions.dropLast, _, report, _,
    ⟨.assign (.request (.request (.start _) _ _ first) _ _ second) _ _ assigned,
      (List.dropLast_append_getLast (by decide +kernel)).symm, ?_, ?_, ?_, ?_, forall_of_take ?_⟩, ran, ?_⟩
  case refine_6 =>
    intro same
    have number := congrArg Term.integer? same
    revert number
    decide +kernel
  all_goals decide +kernel

end MatrixCode
