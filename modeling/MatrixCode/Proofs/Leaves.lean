import MatrixCode.Proofs.Names

/-!
The leaves of scalar expressions. A scalar is computed from variables and literals by operations, to
any depth. When the operations are folded one into another, the text that is left names the variables
at the leaves, in their order, and nothing else. One operand is never written: the exponent of a norm
of a scalar, which is the absolute value whatever the exponent.
-/

namespace MatrixCode

open Identifier (Lists Qualified)

/-- A scalar as it is computed. -/
inductive Formula where
  | name (word : String)
  | integer (x : Int64)
  | double (x : Float)
  | apply (p : Primitive) (signature : Signature) (operands : List Formula)

namespace Formula

mutual

/-- The variables at the leaves. -/
def leaves : Formula → List String
  | name word => [word]
  | integer _ | double _ => []
  | apply _ _ operands => leavesAll operands

def leavesAll : List Formula → List String
  | [] => []
  | f :: fs => f.leaves ++ leavesAll fs

end

mutual

/-- The variables at the leaves, below operands that are written. -/
def shown : Formula → List String
  | name word => [word]
  | integer _ | double _ => []
  | apply p _ operands => shownAll p.written operands

def shownAll : Nat → List Formula → List String
  | _, [] => []
  | 0, _ :: _ => []
  | n + 1, f :: fs => f.shown ++ shownAll n fs

end

mutual

/-- Nothing is a norm with an exponent, and no operation has more operands than it takes. -/
def isPlain : Formula → Bool
  | name _ | integer _ | double _ => true
  | apply p _ operands => p ≠ .normP && operands.length ≤ p.arity && arePlain operands

def arePlain : List Formula → Bool
  | [] => true
  | f :: fs => f.isPlain && arePlain fs

end

theorem shownAll_eq (n : Nat) (fs : List Formula) : shownAll n fs = (fs.take n).flatMap shown := by
  induction fs generalizing n with
  | nil => simp [shownAll]
  | cons f fs ih =>
      cases n with
      | zero => simp [shownAll]
      | succ n => simp [shownAll, ih]

mutual

theorem shown_eq_leaves : (f : Formula) → f.isPlain → f.shown = f.leaves
  | name _, _ | integer _, _ | double _, _ => rfl
  | apply p signature operands, plain => by
      simp only [isPlain, Bool.and_eq_true, decide_eq_true_iff] at plain
      obtain ⟨⟨other, short⟩, plain⟩ := plain
      have written : p.written = p.arity := if_neg other
      rw [shown, leaves, written, shownAll_eq_leavesAll operands p.arity short plain]

theorem shownAll_eq_leavesAll :
    (fs : List Formula) → (n : Nat) → fs.length ≤ n → arePlain fs → shownAll n fs = leavesAll fs
  | [], _, _, _ => rfl
  | f :: fs, 0, short, _ => absurd short (by simp)
  | f :: fs, n + 1, short, plain => by
      rw [arePlain, Bool.and_eq_true] at plain
      rw [shownAll, leavesAll, shown_eq_leaves f plain.1,
        shownAll_eq_leavesAll fs n (Nat.le_of_succ_le_succ short) plain.2]

end

end Formula

/-- A variable that has not been folded: it goes by its name, or is a finite number. -/
inductive Formula.Leaf : Variable → Formula → Prop
  | name {v : Variable} (name : Identifier.isName v.name) (plain : v.name ∉ Identifier.castWords) :
      Leaf v (.name v.name)
  | integer (x : Int64) : Leaf (.integerLiteral x) (.integer x)
  | double {x : Float} (finite : x.isFinite) : Leaf (.doubleLiteral x) (.double x)

/-- What the instruction computes from its operands. -/
def Instruction.formula (i : Instruction) (formulas : Handle → Formula) : Formula :=
  .apply i.primitive i.signature (i.inputs.map formulas)

/-- The expression that the writer, or the optimizer with it, puts in the place of an instruction. -/
def Writer.Folds (w : Writer) (t : Table) (i : Instruction) (s : ScalarText) : Prop :=
  w.fold t i = .ok (some s) ∨ Folding.expression? w.fold t i = .ok (some s)

/-- Tables that come from folding instructions one after the other, with what the scalars are
computed by. -/
inductive Formula.Folded (w : Writer) : Table → (Handle → Formula) → Prop
  | start {t : Table} {formulas : Handle → Formula}
      (each : ∀ h v, t.get? h = some v → v.kind.isScalar → Leaf v (formulas h)) : Folded w t formulas
  | fold {t : Table} {formulas : Handle → Formula} {i : Instruction} {h : Handle} {s : ScalarText}
      (before : Folded w t formulas) (output : i.output = some h) (folds : w.Folds t i s) :
      Folded w (t.modify h (·.foldInto s.text s.precedence))
        (Function.update formulas h (i.formula formulas))

namespace Formula

variable {w : Writer} {t : Table} {kernels : List String} {formulas : Handle → Formula}

theorem Leaf.lists {v : Variable} {f : Formula} (leaf : Leaf v f) : Lists f.shown v.operand := by
  cases leaf with
  | name name plain =>
      rw [Variable.operand_of_isLiteral_eq_false (Grammar.isLiteral_eq_false name)]
      exact .of_isName name plain
  | integer x => exact Variable.lists_integerLiteral x
  | double finite =>
      obtain ⟨negative, m, q, decoded⟩ := Binary.decode_of_isFinite finite
      exact Variable.lists_doubleLiteral decoded

theorem shown_formula (i : Instruction) (formulas : Handle → Formula) :
    (i.formula formulas).shown =
      (i.inputs.take i.primitive.written).flatMap fun h => (formulas h).shown := by
  rw [Instruction.formula, shown, shownAll_eq, ← List.map_take, List.flatMap_map]

/-- What an instruction is folded into names the leaves of what it computes. -/
theorem lists_folds {i : Instruction} {s : ScalarText} (path : Qualified w.kernels kernels)
    (each : ∀ h v, t.get? h = some v → v.kind.isScalar → Lists (formulas h).shown v.operand)
    (folds : w.Folds t i s) : Lists (i.formula formulas).shown s.text := by
  have written (folded : w.fold t i = .ok (some s)) : Lists (i.formula formulas).shown s.text := by
    obtain ⟨_, -, -, scalars⟩ := Grammar.phrase_of_fold folded
    have listed : ∀ h ∈ i.inputs, Writer.Listed t (fun h => (formulas h).shown) h := by
      intro h hh
      obtain ⟨v, hv, scalar⟩ := scalars h hh
      exact ⟨v, hv, each h v hv scalar⟩
    obtain ⟨phrase, instruction, l⟩ := Writer.lists_fold path listed folded
    rwa [Phrase.handles_eq_take instruction, ← shown_formula] at l
  obtain folded | expression := folds
  · exact written folded
  · obtain folded | ⟨⟨n, rfl⟩, literals⟩ := Folding.cases_expression? expression
    · exact written folded
    · have none : (i.formula formulas).shown = [] := by
        rw [shown_formula, List.flatMap_eq_nil_iff]
        intro h hh
        obtain ⟨v, x, hv, literal⟩ := literals h (List.mem_of_mem_take hh)
        rw [← (each h v hv (Variable.isLiteral_of_integer literal).2).free,
          Variable.free_of_literalInteger? literal]
      exact none ▸ ScalarText.lists_integer n

/-- The text of every scalar names the leaves of what it was computed by. -/
theorem Folded.lists (path : Qualified w.kernels kernels) (folded : Folded w t formulas) :
    ∀ h v, t.get? h = some v → v.kind.isScalar → Lists (formulas h).shown v.operand := by
  induction folded with
  | start each => exact fun h v hv scalar => (each h v hv scalar).lists
  | @fold t formulas i o s before output folds ih =>
      intro h v hv scalar
      rw [Table.get?_modify] at hv
      split at hv
      · next same =>
          obtain ⟨u, -, rfl⟩ := Option.map_eq_some_iff.mp hv
          have l := lists_folds path ih folds
          rw [same, Function.update_self, u.operand_foldInto l.line]
          exact l
      · next other =>
          rw [Function.update_of_ne other]
          exact ih h v hv scalar

/-- What an instruction is folded into names the variables at the leaves, in their order, but for those
below the exponent of a norm, which is not written. So it has free identifiers exactly if there is such
a leaf, and the variable that it is folded into is constant exactly if there is none. Where there is no
norm with an exponent, all leaves count. -/
theorem Folded.free_eq_shown (path : Qualified w.kernels kernels) (folded : Folded w t formulas)
    {i : Instruction} {s : ScalarText} (folds : w.Folds t i s) :
    let f := i.formula formulas
    Identifier.free s.text = f.shown ∧ (Identifier.hasFree s.text ↔ f.shown ≠ []) ∧
      (∀ v : Variable, (v.foldInto s.text s.precedence).constant ↔ f.shown = []) ∧
      (f.isPlain → (Identifier.hasFree s.text ↔ f.leaves ≠ []) ∧
        ∀ v : Variable, (v.foldInto s.text s.precedence).constant ↔ f.leaves = []) := by
  intro f
  have free : Identifier.free s.text = f.shown := (lists_folds path (folded.lists path) folds).free
  have occurs : Identifier.hasFree s.text ↔ f.shown ≠ [] := by rw [Identifier.hasFree_iff, free]
  have constant (v : Variable) : (v.foldInto s.text s.precedence).constant ↔ f.shown = [] := by
    rw [Variable.foldInto, Bool.not_eq_true', ← Bool.not_eq_true, occurs, not_not]
  refine ⟨free, occurs, constant, fun plain => ?_⟩
  rw [← shown_eq_leaves f plain]
  exact ⟨occurs, constant⟩

/-- A double literal, a double of the user, and two temporaries. -/
def exponentTable : Table where
  entries := #[.doubleLiteral 2, .named "p" .double, .fresh "td0" .double, .fresh "td1" .double]
  literals := []

def exponentFormulas (h : Handle) : Formula :=
  match h.index with
  | 0 => .double 2
  | 1 => .name "p"
  | 2 => .name "td0"
  | _ => .name "td1"

theorem folded_exponentTable : Folded .standard exponentTable exponentFormulas := by
  refine .start fun h v hv _ => ?_
  match h, hv with
  | ⟨0⟩, hv =>
      obtain rfl := Option.some.inj hv
      exact .double (by decide +kernel)
  | ⟨1⟩, hv | ⟨2⟩, hv | ⟨3⟩, hv =>
      obtain rfl := Option.some.inj hv
      exact .name (by decide) (by decide)
  | ⟨n + 4⟩, hv => cases hv

open Grammar (onScalars)

/-- The product `p * 2.0`, and then its norm to the exponent `p`. The product has one name among its
leaves; of the names in the norm the second is not written. -/
theorem free_normOfProduct :
    let product := onScalars .multiply .ss [⟨1⟩, ⟨0⟩] ⟨2⟩
    let norm := onScalars .normP .ss [⟨2⟩, ⟨1⟩] ⟨3⟩
    let formulas := Function.update exponentFormulas ⟨2⟩ (product.formula exponentFormulas)
    ((product.formula exponentFormulas).leaves = ["p"] ∧ Identifier.hasFree "p * 2.0") ∧
      (norm.formula formulas).leaves = ["p", "p"] ∧ (norm.formula formulas).shown = ["p"] ∧
      Identifier.free "f64::abs(p * 2.0)" = ["p"] := by
  intro product norm formulas
  have path : Qualified Writer.standard.kernels ["mateq", "kernels"] := by decide
  have first : Writer.standard.fold exponentTable product =
      .ok (some ⟨"p * 2.0", Precedence.multiplicative⟩) :=
    Outcome.toOption_eq_some.mp (by decide +kernel)
  have second : Writer.standard.fold
      (exponentTable.modify ⟨2⟩ (·.foldInto "p * 2.0" Precedence.multiplicative)) norm =
        .ok (some ⟨"f64::abs(p * 2.0)", Precedence.atom⟩) :=
    Outcome.toOption_eq_some.mp (by decide +kernel)
  have leaves : (product.formula exponentFormulas).leaves = ["p"] := by decide +kernel
  have shown : (norm.formula formulas).shown = ["p"] := by decide +kernel
  refine ⟨⟨leaves, ?_⟩, by decide +kernel, shown, ?_⟩
  · have plain : (product.formula exponentFormulas).isPlain := by decide +kernel
    refine ((folded_exponentTable.free_eq_shown path (.inl first)).2.2.2 plain).1.mpr ?_
    rw [leaves]
    exact List.cons_ne_nil _ _
  · have folded : Folded .standard _ formulas := .fold folded_exponentTable rfl (.inl first)
    exact (folded.free_eq_shown path (.inl second)).1.trans shown

/-- The norm of a literal to an exponent of the user has the exponent as a leaf, and its text has no
free identifiers. -/
theorem constant_normP :
    let norm := onScalars .normP .ss [⟨0⟩, ⟨1⟩] ⟨2⟩
    Folded .standard exponentTable exponentFormulas ∧
      Writer.standard.fold exponentTable norm = .ok (some ⟨"f64::abs(2.0)", Precedence.atom⟩) ∧
      (norm.formula exponentFormulas).leaves = ["p"] ∧ Identifier.hasFree "f64::abs(2.0)" = false ∧
      ((Variable.fresh "td0" .double).foldInto "f64::abs(2.0)" Precedence.atom).constant = true := by
  refine ⟨folded_exponentTable, Outcome.toOption_eq_some.mp ?_, ?_, ?_, ?_⟩
  all_goals decide +kernel

end Formula

end MatrixCode
