import MatrixCode.Proofs.IntegerTrees
import MatrixCode.Proofs.Rollback

/-!
Integer literals are entered once. The table remembers a literal by its name, and other entries may go by
the same name: the user may have chosen it, or a temporary may have been folded into that text. What the
table remembers is none of these, since it was entered as a literal, literals are neither folded nor
renamed, and a truncation forgets what it drops.
-/

namespace MatrixCode

theorem LiteralName.double_ne_integer (x : Float) (n : Int64) : double x ≠ integer n := by
  intro same
  have first := congrArg (·.toList.head?) same
  simp [double, integer, wrap] at first

namespace Table

/-- What is done to a table of variables. -/
inductive Edit where
  | integer (value : Int64)
  | double (value : Float)
  | sequence (range : IndexRange)
  /-- A variable of the user, by any name. -/
  | named (name : String) (content : Content)
  /-- A variable of the compiler, by any name. -/
  | fresh (name : String) (content : Content)
  /-- Turns a temporary into a literal; any other variable is left alone. -/
  | fold (h : Handle) (text : String) (precedence : Nat)
  /-- Replaces a handle inside the ranges listed. -/
  | rename (source target : Handle) (ranges : List Handle)
  /-- Keeps the first entries, zero and one among them. -/
  | truncate (size : Nat) (two : 2 ≤ size)

def Edit.isTruncation : Edit → Bool
  | truncate .. => true
  | _ => false

def edit (t : Table) : Edit → Table
  | .integer value => (t.integer value).2
  | .double value => (t.double value).2
  | .sequence range => (t.sequence range).2
  | .named name content => (t.add (.named name content)).2
  | .fresh name content => (t.add (.fresh name content)).2
  | .fold h text precedence =>
    if t.IsTemporary h then t.modify h (·.foldInto text precedence) else t
  | .rename source target ranges => t.renameWithin source target ranges
  | .truncate size _ => t.truncate size

/-- Carries out one edit after the other. -/
def editAll (t : Table) (edits : List Edit) : Table := edits.foldl edit t

/-- What stays when nothing is dropped: integer literals and the handles that they are remembered by. What
is remembered anew is an integer literal. -/
structure Retains (t t' : Table) : Prop where
  entries : ∀ h n, t.get? h = some (.integerLiteral n) → t'.get? h = some (.integerLiteral n)
  known : ∀ n h, t.literals.lookup (LiteralName.integer n) = some h →
    t'.literals.lookup (LiteralName.integer n) = some h
  recorded : ∀ n h, (LiteralName.integer n, h) ∈ t'.literals →
    (LiteralName.integer n, h) ∈ t.literals ∨ t'.get? h = some (.integerLiteral n)

namespace Retains

variable {t t' t'' : Table}

theorem refl (t : Table) : t.Retains t := ⟨fun _ _ => id, fun _ _ => id, fun _ _ => .inl⟩

theorem trans (r : t.Retains t') (r' : t'.Retains t'') : t.Retains t'' where
  entries h n hn := r'.entries h n (r.entries h n hn)
  known n h hn := r'.known n h (r.known n h hn)
  recorded n h hn := by
    obtain before | here := r'.recorded n h hn
    · exact (r.recorded n h before).imp_right (r'.entries h n)
    · exact .inr here

theorem add (t : Table) (v : Variable) : t.Retains (t.add v).2 :=
  ⟨fun h _ => t.extends_add v h _, fun _ _ => id, fun _ _ => .inl⟩

/-- A literal is entered when it is new, so the handles before it are found as before. -/
theorem intern (t : Table) {v : Variable}
    (integer : ∀ n, v.name = LiteralName.integer n → v = .integerLiteral n) :
    t.Retains (t.intern v).2 := by
  unfold Table.intern
  cases found : t.literals.lookup v.name with
  | some h => exact refl t
  | none =>
      have here : (t.add v).2.get? ⟨t.size⟩ = some v := by rw [get?_add, if_pos rfl]
      refine ⟨fun h n => t.extends_add v h _, fun n h hn => ?_, fun n h hn => ?_⟩
      · have other : ¬LiteralName.integer n = v.name := fun same => by simp [← same, hn] at found
        rw [List.lookup_cons, beq_eq_false_iff_ne.mpr other]
        exact hn
      · obtain new | old := List.mem_cons.mp hn
        · obtain ⟨name, rfl⟩ := Prod.mk.inj new
          exact .inr (integer n name.symm ▸ here)
        · exact .inl old

theorem modify (t : Table) {k : Handle} {f : Variable → Variable}
    (kept : ∀ n, t.get? k = some (.integerLiteral n) → f (.integerLiteral n) = .integerLiteral n) :
    t.Retains (t.modify k f) where
  entries h n hn := by
    rw [get?_modify]
    split
    · next same => rw [hn, Option.map_some, kept n (same ▸ hn)]
    · exact hn
  known _ _ := id
  recorded _ _ := .inl

theorem fold (t : Table) {k : Handle} (temporary : t.IsTemporary k) (text : String) (precedence : Nat) :
    t.Retains (t.modify k (·.foldInto text precedence)) := by
  refine modify t fun n hn => ?_
  obtain ⟨v, hv, ht⟩ := temporary
  obtain rfl := Option.some.inj (hn.symm.trans hv)
  cases ht

theorem renameWithin (t : Table) (source target : Handle) (ranges : List Handle) :
    t.Retains (t.renameWithin source target ranges) := by
  unfold Table.renameWithin
  induction ranges generalizing t with
  | nil => exact refl t
  | cons k ranges ih =>
      rw [List.foldl_cons]
      refine trans ?_ (ih _)
      split
      · exact refl t
      · exact modify t fun n _ => Variable.mapRange_of_kind Kind.noConfusion _

end Retains

/-- An edit that drops nothing keeps the integer literals. -/
theorem retains_edit (t : Table) {e : Edit} (keeps : e.isTruncation = false) : t.Retains (t.edit e) := by
  cases e with
  | integer value =>
      exact .intern t fun n name => congrArg _ (LiteralName.integer_injective name)
  | double value => exact .intern t fun n name => absurd name (LiteralName.double_ne_integer value n)
  | sequence range => exact .add t _
  | named name content | fresh name content => exact .add t _
  | fold h text precedence =>
      rw [edit]
      split
      · next temporary => exact .fold t temporary text precedence
      · exact .refl t
  | rename source target ranges => exact .renameWithin t source target ranges
  | truncate size two => cases keeps

theorem retains_editAll (t : Table) {edits : List Edit} (keeps : ∀ e ∈ edits, e.isTruncation = false) :
    t.Retains (t.editAll edits) := by
  induction edits generalizing t with
  | nil => exact .refl t
  | cons e edits ih =>
      obtain ⟨first, rest⟩ := List.forall_mem_cons.mp keeps
      exact (t.retains_edit first).trans (ih (t.edit e) rest)

/-- What the table remembers of integers are literals among its entries, and the first two are zero and
one. -/
structure Canonical (t : Table) : Prop where
  recorded : ∀ n h, (LiteralName.integer n, h) ∈ t.literals → t.get? h = some (.integerLiteral n)
  zero : t.literals.lookup (LiteralName.integer 0) = some zero
  one : t.literals.lookup (LiteralName.integer 1) = some one

theorem mem_of_lookup {literals : List (String × Handle)} {name : String} {h : Handle}
    (found : literals.lookup name = some h) : (name, h) ∈ literals := by
  obtain ⟨before, after, rfl, -⟩ := List.lookup_eq_some_iff.mp found
  simp

theorem lookup_filter {literals : List (String × Handle)} {name : String} {h : Handle}
    {p : String × Handle → Bool} (found : literals.lookup name = some h) (kept : p (name, h)) :
    (literals.filter p).lookup name = some h := by
  obtain ⟨before, after, rfl, first⟩ := List.lookup_eq_some_iff.mp found
  refine List.lookup_eq_some_iff.mpr ⟨before.filter p, after.filter p, ?_, fun entry he => ?_⟩
  · rw [List.filter_append, List.filter_cons_of_pos kept]
  · exact first entry (List.mem_of_mem_filter he)

/-- A literal that is remembered is found, and nothing is entered. -/
theorem integer_of_lookup {t : Table} {n : Int64} {h : Handle}
    (found : t.literals.lookup (LiteralName.integer n) = some h) : t.integer n = (h, t) := by
  have name : (Variable.integerLiteral n).name = LiteralName.integer n := rfl
  rw [integer, intern, name, found]

theorem lookup_integer (t : Table) (n : Int64) :
    (t.integer n).2.literals.lookup (LiteralName.integer n) = some (t.integer n).1 := by
  have name : (Variable.integerLiteral n).name = LiteralName.integer n := rfl
  cases found : t.literals.lookup (LiteralName.integer n) with
  | some h => rw [integer_of_lookup found, found]
  | none =>
      rw [integer, intern, name, found]
      exact List.lookup_cons_self

/-- A literal that is asked for again, with nothing dropped in between, has the handle that it had. -/
theorem integer_again (t : Table) (n : Int64) {edits : List Edit}
    (keeps : ∀ e ∈ edits, e.isTruncation = false) :
    (((t.integer n).2.editAll edits).integer n).1 = (t.integer n).1 := by
  have found := (retains_editAll (t.integer n).2 keeps).known n _ (t.lookup_integer n)
  rw [integer_of_lookup found]

namespace Canonical

variable {t t' : Table}

theorem interned (canonical : t.Canonical) : t.Interned := fun n h found =>
  canonical.recorded n h (mem_of_lookup found)

theorem retained (canonical : t.Canonical) (retains : t.Retains t') : t'.Canonical where
  recorded n h hn := (retains.recorded n h hn).elim
    (fun before => retains.entries h n (canonical.recorded n h before)) id
  zero := retains.known 0 _ canonical.zero
  one := retains.known 1 _ canonical.one

theorem truncate (canonical : t.Canonical) {size : Nat} (two : 2 ≤ size) :
    (t.truncate size).Canonical where
  recorded n h hn := by
    obtain ⟨before, below⟩ := List.mem_filter.mp hn
    rw [get?_truncate, if_pos (of_decide_eq_true below)]
    exact canonical.recorded n h before
  zero := lookup_filter canonical.zero (decide_eq_true (Nat.lt_of_lt_of_le Nat.zero_lt_two two))
  one := lookup_filter canonical.one (decide_eq_true (Nat.lt_of_lt_of_le Nat.one_lt_two two))

theorem edit (canonical : t.Canonical) (e : Edit) : (t.edit e).Canonical := by
  cases truncation : e.isTruncation with
  | false => exact canonical.retained (t.retains_edit truncation)
  | true =>
      cases e with
      | truncate size two => exact canonical.truncate two
      | _ => cases truncation

theorem editAll (canonical : t.Canonical) (edits : List Edit) : (t.editAll edits).Canonical :=
  List.foldlRecOn edits Table.edit canonical fun _ c e _ => c.edit e

theorem initial : Table.initial.Canonical := by
  have none : Retains ⟨#[], []⟩ Table.initial :=
    (retains_edit ⟨#[], []⟩ (e := .integer 0) rfl).trans (retains_edit _ (e := .integer 1) rfl)
  refine ⟨fun n h hn => (none.recorded n h hn).elim (fun before => by cases before) id, ?_, ?_⟩
  all_goals decide +kernel

/-- Literals with different values have different handles, with nothing dropped in between. -/
theorem integer_ne (canonical : t.Canonical) {m n : Int64} (other : m ≠ n) {edits : List Edit}
    (keeps : ∀ e ∈ edits, e.isTruncation = false) :
    (((t.integer n).2.editAll edits).integer m).1 ≠ (t.integer n).1 := by
  have retains := retains_editAll (t.integer n).2 keeps
  have after := (canonical.edit (.integer n)).retained retains
  obtain ⟨-, -, first⟩ := canonical.interned.integer n
  obtain ⟨-, ext, second⟩ := after.interned.integer m
  intro same
  rw [same, ext _ _ (retains.entries _ n first)] at second
  have literal := congrArg Variable.literalInteger? (Option.some.inj second)
  rw [Variable.literalInteger?_integerLiteral, Variable.literalInteger?_integerLiteral] at literal
  exact other (Option.some.inj literal).symm

end Canonical

/-- Whatever has been done to the table, an integer is handed out as a literal with its value, by one handle
as long as nothing is dropped, and different integers have different handles. Zero and one are the first
two entries. -/
theorem integer_editAll (edits : List Edit) :
    let t := initial.editAll edits
    (∀ n, ∃ v, (t.integer n).2.get? (t.integer n).1 = some v ∧ v.temporary = false ∧
        v.kind = .integer ∧ v.literalInteger? = some n) ∧
      (∀ n later, (∀ e ∈ later, e.isTruncation = false) →
        (((t.integer n).2.editAll later).integer n).1 = (t.integer n).1 ∧
        ∀ m, m ≠ n → (((t.integer n).2.editAll later).integer m).1 ≠ (t.integer n).1) ∧
      t.get? zero = some (.integerLiteral 0) ∧ t.integer 0 = (zero, t) ∧
      t.get? one = some (.integerLiteral 1) ∧ t.integer 1 = (one, t) := by
  intro t
  have canonical : t.Canonical := Canonical.initial.editAll edits
  refine ⟨fun n => ?_, fun n later keeps => ⟨t.integer_again n keeps, fun m other =>
    canonical.integer_ne other keeps⟩, canonical.interned 0 zero canonical.zero, ?_,
    canonical.interned 1 one canonical.one, ?_⟩
  · obtain ⟨-, -, entered⟩ := canonical.interned.integer n
    exact ⟨_, entered, rfl, rfl, Variable.literalInteger?_integerLiteral n⟩
  · exact integer_of_lookup canonical.zero
  · exact integer_of_lookup canonical.one

/-- A variable of the user and a temporary that was folded both go by the name of the literal five, which is
entered next to them, once. -/
theorem integer_namesakes :
    let edits : List Edit := [.named (LiteralName.integer 5) .integer, .fresh "ti0" .integer,
      .fold ⟨3⟩ "5" Precedence.atom, .integer 7, .truncate 4 (by decide)]
    let later : List Edit := [.fresh "ti1" .integer, .fold ⟨5⟩ "5" Precedence.atom, .integer 7]
    let t := initial.editAll edits
    (t.get? ⟨2⟩).map Variable.name = some (LiteralName.integer 5) ∧
      (t.get? ⟨3⟩).map Variable.name = some (LiteralName.integer 5) ∧
      (t.integer 5).1 = ⟨4⟩ ∧ (((t.integer 5).2.editAll later).integer 5).1 = ⟨4⟩ ∧
      (((t.integer 5).2.editAll later).integer 7).1 ≠ ⟨4⟩ := by
  intro edits later t
  obtain ⟨-, stays, -⟩ := integer_editAll edits
  obtain ⟨again, other⟩ := stays 5 later (by decide)
  have entered : (t.integer 5).1 = ⟨4⟩ := by decide +kernel
  exact ⟨by decide +kernel, by decide +kernel, entered, again.trans entered,
    entered ▸ other 7 (by decide)⟩

end Table
end MatrixCode
