import Mathlib.Data.List.Forall2
import MatrixCode.Machine.Basic

/-!
What readers of a store see. Two runs are compared by their results only: they
agree when both fail or both give the same result, so an outcome is read as an
option here. A reader looks at a variable's kind and at the value of its
literal, never at its name otherwise; this is its appearance.
-/

namespace MatrixCode
namespace Outcome

variable {ε α β : Type}

@[simp] theorem toOption_ok (a : α) : (Except.ok a : Except ε α).toOption = some a := rfl

@[simp] theorem toOption_pure (a : α) : (pure a : Except ε α).toOption = some a := rfl

@[simp] theorem toOption_error (e : ε) : (Except.error e : Except ε α).toOption = none := rfl

@[simp] theorem toOption_throw (e : ε) : (throw e : Except ε α).toOption = none := rfl

@[simp] theorem toOption_report (e : Error) : (report e : Outcome α).toOption = none := rfl

@[simp] theorem toOption_bind (x : Except ε α) (f : α → Except ε β) :
    (x >>= f).toOption = x.toOption.bind fun a => (f a).toOption := by
  cases x <;> rfl

@[simp] theorem toOption_map (x : Except ε α) (f : α → β) :
    (f <$> x).toOption = x.toOption.map f := by
  cases x <;> rfl

@[simp] theorem toOption_mapError {δ : Type} (x : Except ε α) (f : ε → δ) :
    (x.mapError f).toOption = x.toOption := by
  cases x <;> rfl

@[simp] theorem toOption_ite (c : Prop) [Decidable c] (x y : Except ε α) :
    (if c then x else y).toOption = if c then x.toOption else y.toOption := by
  split <;> rfl

theorem toOption_eq_some {x : Except ε α} {a : α} : x.toOption = some a ↔ x = .ok a := by
  cases x <;> simp

theorem toOption_mapM (f : α → Except ε β) (xs : List α) :
    (xs.mapM f).toOption = xs.mapM fun a => (f a).toOption := by
  induction xs with
  | nil => rfl
  | cons x xs ih =>
      rw [List.mapM_cons, List.mapM_cons, ← ih]
      cases f x with
      | error e => rfl
      | ok b => cases xs.mapM f <;> rfl

theorem mapM_congr {f g : α → Option β} {xs : List α} (h : ∀ a ∈ xs, f a = g a) :
    xs.mapM f = xs.mapM g := by
  induction xs with
  | nil => rfl
  | cons x xs ih =>
      rw [List.mapM_cons, List.mapM_cons, h x List.mem_cons_self,
        ih fun a ha => h a (List.mem_cons_of_mem x ha)]

theorem isSome_mapM {f : α → Option β} {xs : List α} :
    (xs.mapM f).isSome ↔ ∀ a ∈ xs, (f a).isSome := by
  induction xs with
  | nil => simp
  | cons x xs ih =>
      rw [List.forall_mem_cons, ← ih, List.mapM_cons]
      cases f x with
      | none => simp
      | some y => cases xs.mapM f <;> simp

theorem isSome_of_mapM {f : α → Option β} {xs : List α} {ys : List β} (h : xs.mapM f = some ys) :
    ∀ a ∈ xs, (f a).isSome :=
  isSome_mapM.mp (by rw [h]; rfl)

theorem mapM_eq_map {f : α → Option β} {g : α → β} {xs : List α} (h : ∀ a ∈ xs, f a = some (g a)) :
    xs.mapM f = some (xs.map g) := by
  rw [mapM_congr h]
  induction xs with
  | nil => rfl
  | cons x xs ih => simp [List.mapM_cons, ih fun a ha => h a (List.mem_cons_of_mem x ha)]

/-- The results stand beside what they are results of. -/
theorem zip_of_mapM {f : α → Option β} {xs : List α} {ys : List β} (h : xs.mapM f = some ys) :
    (xs.zip ys).map Prod.fst = xs ∧ ∀ pair ∈ xs.zip ys, f pair.1 = some pair.2 := by
  induction xs generalizing ys with
  | nil => simp
  | cons x xs ih =>
      simp only [List.mapM_cons, Option.bind_eq_bind, Option.bind_eq_some_iff, Option.pure_def,
        Option.some.injEq] at h
      obtain ⟨y, hy, ys, hys, rfl⟩ := h
      obtain ⟨first, results⟩ := ih hys
      exact ⟨by simp [first], List.forall_mem_cons.mpr ⟨hy, results⟩⟩

theorem forall₂_of_mapM {f : α → Except ε β} {xs : List α} {ys : List β} (h : xs.mapM f = .ok ys) :
    List.Forall₂ (fun x y => f x = .ok y) xs ys := by
  induction xs generalizing ys with
  | nil =>
      cases h
      exact .nil
  | cons x xs ih =>
      rw [List.mapM_cons] at h
      cases first : f x with
      | error => simp [first, bind, Except.bind] at h
      | ok y =>
          cases rest : xs.mapM f with
          | error => simp [first, rest, bind, Except.bind] at h
          | ok ys =>
              simp only [first, rest, bind, Except.bind, pure, Except.pure, Except.ok.injEq] at h
              exact h ▸ .cons first (ih rest)

end Outcome

namespace Store

@[simp] theorem get?_empty (h : Handle) : empty.get? h = none := rfl

theorem lookup_cons (k a : Handle) (x : Value) (entries : List (Handle × Value)) :
    ((a, x) :: entries).lookup k = if k = a then some x else entries.lookup k := by
  by_cases hk : k = a
  · simp [hk]
  · simp [List.lookup_cons, beq_eq_false_iff_ne.mpr hk, hk]

theorem lookup_filter (p : Handle → Bool) (entries : List (Handle × Value)) (k : Handle) :
    (entries.filter fun entry => p entry.1).lookup k = if p k then entries.lookup k else none := by
  induction entries with
  | nil => simp
  | cons entry entries ih =>
      obtain ⟨a, x⟩ := entry
      by_cases ha : p a
      · rw [List.filter_cons_of_pos (by simpa using ha), lookup_cons, lookup_cons, ih]
        split <;> simp_all
      · rw [List.filter_cons_of_neg (by simpa using ha), ih, lookup_cons]
        by_cases hk : k = a
        · simp [hk, ha]
        · simp [hk]

@[simp] theorem get?_erase (s : Store) (h k : Handle) :
    (s.erase h).get? k = if k = h then none else s.get? k := by
  have erased := lookup_filter (fun a => decide (a ≠ h)) s.entries k
  simp only [get?, erase, erased]
  split <;> simp_all

@[simp] theorem get?_set (s : Store) (h k : Handle) (x : Value) :
    (s.set h x).get? k = if k = h then some x else s.get? k := by
  have below := lookup_filter (fun a => decide (a.index < h.index)) s.entries k
  have above := lookup_filter (fun a => decide (h.index < a.index)) s.entries k
  simp only [get?, set, List.lookup_append, lookup_cons, below, above, decide_eq_true_eq]
  by_cases hk : k = h
  · simp [hk]
  · have apart : k.index ≠ h.index := fun same => hk (congrArg Handle.mk same)
    rcases Nat.lt_or_gt_of_ne apart with lt | gt
    · simp [hk, lt, Nat.lt_asymm lt]
    · simp [hk, gt, Nat.lt_asymm gt]

end Store

/-- What a reader sees of a variable. -/
structure Appearance where
  kind : Kind
  isLiteral : Bool
  integer? : Option Int64
  double? : Option Float

namespace Value

def integer? : Value → Option Int64
  | integer x => some x
  | _ => none

/-- A scalar as a double. -/
def double? : Value → Option Float
  | integer x => some (Binary.ofInt x.toInt)
  | double x => some x
  | matrix _ => none

end Value

namespace Variable

def appearance (v : Variable) : Appearance where
  kind := v.kind
  isLiteral := v.isLiteral
  integer? := v.literalInteger?
  double? := v.literalDouble?

/-- Variables that are not literals are told apart by their kinds only. -/
theorem appearance_of_isLiteral_eq_false {v : Variable} (hv : v.isLiteral = false) :
    v.appearance = ⟨v.kind, false, none, none⟩ := by
  have body : LiteralName.body? v.name = none := by simpa [isLiteral] using hv
  simp [appearance, hv, literalInteger?, literalDouble?, body]

@[simp] theorem appearance_mapRange (v : Variable) (f : Handle → Handle) :
    (v.mapRange f).appearance = v.appearance := by
  obtain ⟨name, content, temporary, constant, precedence⟩ := v
  cases content <;> rfl

end Variable

namespace Table

@[simp] theorem get?_modify (t : Table) (h k : Handle) (f : Variable → Variable) :
    (t.modify h f).get? k = if k = h then (t.get? k).map f else t.get? k := by
  obtain ⟨k⟩ := k
  obtain ⟨h⟩ := h
  simp only [get?, modify, Array.getElem?_modify, Handle.mk.injEq, eq_comm]

/-- The handle is that of a variable of the compiler. -/
def IsTemporary (t : Table) (h : Handle) : Prop := ∃ v, t.get? h = some v ∧ v.temporary = true

instance (t : Table) (h : Handle) : Decidable (t.IsTemporary h) :=
  decidable_of_iff ((t.get? h).any (·.temporary) = true) (by simp [IsTemporary, Option.any_eq_true])

def appearance? (t : Table) (h : Handle) : Option Appearance :=
  (t.get? h).map Variable.appearance

def kind? (t : Table) (h : Handle) : Option Kind := (t.get? h).map Variable.kind

theorem kind?_eq_appearance? (t : Table) (h : Handle) :
    t.kind? h = (t.appearance? h).map Appearance.kind := by
  simp only [kind?, appearance?, Option.map_map]
  rfl

/-- Entries of one kind look alike when neither is a literal. -/
theorem appearance?_eq_of_kind? {t : Table} {h k : Handle} (kind : t.kind? h = t.kind? k)
    (hh : ∀ a, t.appearance? h = some a → a.isLiteral = false)
    (hk : ∀ a, t.appearance? k = some a → a.isLiteral = false) :
    t.appearance? h = t.appearance? k := by
  simp only [appearance?, kind?] at *
  cases hv : t.get? h with
  | none => cases hw : t.get? k <;> simp_all
  | some v =>
      cases hw : t.get? k with
      | none => simp_all
      | some w =>
          simp only [hv, hw, Option.map_some, Option.some.injEq] at *
          rw [Variable.appearance_of_isLiteral_eq_false (hh _ rfl),
            Variable.appearance_of_isLiteral_eq_false (hk _ rfl), kind]

@[simp] theorem toOption_fetch (t : Table) (h : Handle) : (t.fetch h).toOption = t.get? h := by
  unfold fetch
  cases t.get? h <;> rfl

@[simp] theorem toOption_lookup (t : Table) (h : Handle) : (t.lookup h).toOption = t.get? h := by
  unfold lookup
  cases t.get? h <;> rfl

@[simp] theorem toOption_fetchKind (t : Table) (h : Handle) :
    (t.fetchKind h).toOption = t.kind? h := by
  simp [fetchKind, kind?]

end Table

namespace Store

theorem toOption_integer (s : Store) (t : Table) (h : Handle) :
    (s.integer t h).toOption = (t.appearance? h).bind fun a =>
      if a.isLiteral then a.integer? else (s.get? h).bind Value.integer? := by
  simp only [integer, Outcome.toOption_bind, Table.toOption_lookup, Table.appearance?]
  cases t.get? h with
  | none => rfl
  | some v =>
      simp only [Option.bind_some, Option.map_some, Variable.appearance, Outcome.toOption_ite]
      congr 1
      · cases v.literalInteger? <;> rfl
      · rcases s.get? h with _ | ⟨_ | _ | _⟩ <;> rfl

theorem toOption_double (s : Store) (t : Table) (h : Handle) :
    (s.double t h).toOption = (t.appearance? h).bind fun a =>
      if a.isLiteral then a.double? else (s.get? h).bind Value.double? := by
  simp only [double, Outcome.toOption_bind, Table.toOption_lookup, Table.appearance?]
  cases t.get? h with
  | none => rfl
  | some v =>
      simp only [Option.bind_some, Option.map_some, Variable.appearance, Outcome.toOption_ite]
      congr 1
      · cases v.literalDouble? <;> rfl
      · rcases s.get? h with _ | ⟨_ | _ | _⟩ <;> rfl

theorem toOption_matrix (s : Store) (t : Table) (h : Handle) :
    (s.matrix t h).toOption = s.matrix? h := by
  simp only [matrix, matrix?]
  rcases s.get? h with _ | ⟨_ | _ | _⟩
  · rfl
  all_goals simp [wrongKind, Value.matrix?]

end Store

/-- Two readers agree on a handle of theirs: they see the same kind, and every way
of reading it gives both the same value or fails for both. -/
structure SameReading (t t' : Table) (s s' : Store) (h h' : Handle) : Prop where
  kind : t'.kind? h' = t.kind? h
  integer : (s'.integer t' h').toOption = (s.integer t h).toOption
  double : (s'.double t' h').toOption = (s.double t h).toOption
  matrix : (s'.matrix t' h').toOption = (s.matrix t h).toOption

namespace SameReading

variable {t t' : Table} {s s' : Store} {h h' : Handle}

/-- Variables that look alike and hold the same value are read alike. -/
theorem of_bound (ha : t'.appearance? h' = t.appearance? h) (hv : s'.get? h' = s.get? h) :
    SameReading t t' s s' h h' where
  kind := by rw [Table.kind?_eq_appearance?, Table.kind?_eq_appearance?, ha]
  integer := by rw [Store.toOption_integer, Store.toOption_integer, ha, hv]
  double := by rw [Store.toOption_double, Store.toOption_double, ha, hv]
  matrix := by rw [Store.toOption_matrix, Store.toOption_matrix, Store.matrix?, Store.matrix?, hv]

theorem index (r : SameReading t t' s s' h h') :
    (s'.index t' h').toOption = (s.index t h).toOption := by
  simp only [Store.index, Outcome.toOption_bind, Table.toOption_fetchKind, r.kind,
    Outcome.toOption_ite, r.double, r.integer]

theorem itemValue (r : SameReading t t' s s' h h') :
    (Instruction.itemValue t' s' h').toOption = (Instruction.itemValue t s h).toOption := by
  simp only [Instruction.itemValue, Outcome.toOption_bind, Table.toOption_fetchKind, r.kind]
  congr 1
  funext kind
  cases kind <;> simp [r.double, r.matrix]

end SameReading
end MatrixCode
