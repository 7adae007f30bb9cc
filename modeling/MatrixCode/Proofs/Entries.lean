import Mathlib.Tactic.Ring
import MatrixCode.Matrix.Selection

/-!
Matrices by their entries. A matrix is given by its shape and the entries inside, so an operation is known
when the shape and the entries of its result are. Writing leaves all other entries alone, and among several
writes to one entry the last counts.
-/

namespace MatrixCode
namespace Matrix

variable {α : Type}

theorem position_div {cols i j : Nat} (hj : j < cols) : (i * cols + j) / cols = i := by
  rw [Nat.mul_comm, Nat.mul_add_div (Nat.zero_lt_of_lt hj), Nat.div_eq_of_lt hj, Nat.add_zero]

theorem position_mod {cols i j : Nat} (hj : j < cols) : (i * cols + j) % cols = j := by
  rw [Nat.mul_comm, Nat.mul_add_mod, Nat.mod_eq_of_lt hj]

/-- A position counted row by row determines row and column. -/
theorem position_inj {cols i j r c : Nat} (hj : j < cols) (hc : c < cols) :
    i * cols + j = r * cols + c ↔ i = r ∧ j = c := by
  constructor
  · intro same
    have row := congrArg (· / cols) same
    have col := congrArg (· % cols) same
    simp only [position_div hj, position_div hc] at row
    simp only [position_mod hj, position_mod hc] at col
    exact ⟨row, col⟩
  · rintro ⟨rfl, rfl⟩
    rfl

theorem position_lt {rows cols i j : Nat} (hi : i < rows) (hj : j < cols) :
    i * cols + j < rows * cols :=
  calc i * cols + j < i * cols + cols := by omega
    _ = (i + 1) * cols := by ring
    _ ≤ rows * cols := Nat.mul_le_mul_right cols hi

theorem exists_position {rows cols p : Nat} (inside : p < rows * cols) :
    ∃ i j, i < rows ∧ j < cols ∧ p = i * cols + j := by
  have positive : 0 < cols := Nat.pos_of_ne_zero fun zero => by simp [zero] at inside
  exact ⟨p / cols, p % cols, Nat.div_lt_of_lt_mul (by rwa [Nat.mul_comm]), Nat.mod_lt p positive,
    (Nat.div_add_mod' p cols).symm⟩

/-- What is written, with the places it is written to. -/
abbrev Writes (α : Type) := List ((Nat × Nat) × α)

@[simp] theorem shape_set (m : Matrix α) (i j : Nat) (x : α) : (m.set i j x).shape = m.shape := by
  unfold set
  split <;> rfl

@[simp] theorem shape_setAll (m : Matrix α) (writes : Writes α) : (m.setAll writes).shape = m.shape := by
  induction writes generalizing m with
  | nil => rfl
  | cons w writes ih => exact (ih _).trans (shape_set ..)

theorem setAll_append (m : Matrix α) (before after : Writes α) :
    m.setAll (before ++ after) = (m.setAll before).setAll after := List.foldl_append

variable [Inhabited α]

theorem getElem?_elements (m : Matrix α) {i j : Nat} (hi : i < m.rows) (hj : j < m.cols) :
    m.elements[i * m.cols + j]? = some (m.entry i j) := by
  have inside : i * m.cols + j < m.elements.size := m.size_eq ▸ position_lt hi hj
  simp [entry, hi, hj, inside]

theorem entry_build {rows cols : Nat} (f : Nat → Nat → α) {i j : Nat} (hi : i < rows) (hj : j < cols) :
    (build rows cols f).entry i j = f i j := by
  simp [entry, build, hi, hj, position_lt hi hj, position_div hj, position_mod hj]

/-- Shape and entries determine a matrix. -/
theorem ext_entry {a b : Matrix α} (shape : a.shape = b.shape)
    (same : ∀ i j, i < a.rows → j < a.cols → a.entry i j = b.entry i j) : a = b := by
  obtain ⟨rows, cols, as, ha⟩ := a
  obtain ⟨rows', cols', bs, hb⟩ := b
  obtain ⟨rfl, rfl⟩ := Prod.mk.inj shape
  have elements : as = bs := by
    refine Array.ext_getElem? fun k => ?_
    by_cases inside : k < rows * cols
    · obtain ⟨i, j, hi, hj, rfl⟩ := exists_position inside
      exact (getElem?_elements ⟨rows, cols, as, ha⟩ hi hj).trans
        ((congrArg some (same i j hi hj)).trans (getElem?_elements ⟨rows, cols, bs, hb⟩ hi hj).symm)
    · rw [Array.getElem?_eq_none (ha ▸ Nat.not_lt.mp inside),
        Array.getElem?_eq_none (hb ▸ Nat.not_lt.mp inside)]
  subst elements
  rfl

/-- A matrix whose entries are described is the one that is built from the description. -/
theorem build_eq {m : Matrix α} {rows cols : Nat} {f : Nat → Nat → α} (shape : m.shape = (rows, cols))
    (same : ∀ i j, i < rows → j < cols → f i j = m.entry i j) : build rows cols f = m :=
  ext_entry shape.symm fun i j hi hj => (entry_build f hi hj).trans (same i j hi hj)

theorem entry_set_self (m : Matrix α) {i j : Nat} (x : α) (hi : i < m.rows) (hj : j < m.cols) :
    (m.set i j x).entry i j = x := by
  have inside : i * m.cols + j < m.elements.size := m.size_eq ▸ position_lt hi hj
  simp [set, entry, hi, hj, inside]

theorem entry_set_of_ne (m : Matrix α) {i j r c : Nat} (x : α) (other : (i, j) ≠ (r, c)) :
    (m.set i j x).entry r c = m.entry r c := by
  by_cases inside : i < m.rows ∧ j < m.cols
  · by_cases hc : c < m.cols
    · have apart : i * m.cols + j ≠ r * m.cols + c := fun same =>
        other (Prod.ext_iff.mpr ((position_inj inside.2 hc).mp same))
      simp [set, entry, inside, Array.getElem?_setIfInBounds_ne apart]
    · simp [set, entry, inside, hc]
  · rw [set, if_neg inside]

theorem entry_setAll_of_not_mem (m : Matrix α) {writes : Writes α} {r c : Nat}
    (unlisted : ∀ w ∈ writes, w.1 ≠ (r, c)) : (m.setAll writes).entry r c = m.entry r c := by
  induction writes generalizing m with
  | nil => rfl
  | cons w writes ih =>
      obtain ⟨first, rest⟩ := List.forall_mem_cons.mp unlisted
      exact (ih _ rest).trans (entry_set_of_ne m w.2 first)

/-- The last write counts. -/
theorem entry_setAll_of_last (m : Matrix α) (before : Writes α) {after : Writes α} {r c : Nat} (x : α)
    (hr : r < m.rows) (hc : c < m.cols) (unlisted : ∀ w ∈ after, w.1 ≠ (r, c)) :
    (m.setAll (before ++ ((r, c), x) :: after)).entry r c = x := by
  obtain ⟨rows, cols⟩ := Prod.mk.inj (shape_setAll m before)
  rw [setAll_append]
  refine (entry_setAll_of_not_mem _ unlisted).trans ?_
  exact entry_set_self _ x (rows ▸ hr) (cols ▸ hc)

theorem entry_paste (m : Matrix α) (r c : Nat) (block : Matrix α) {i j : Nat} (hi : i < m.rows)
    (hj : j < m.cols) :
    (m.paste r c block).entry i j =
      if r ≤ i ∧ i < r + block.rows ∧ c ≤ j ∧ j < c + block.cols then block.entry (i - r) (j - c)
      else m.entry i j := entry_build _ hi hj

end Matrix
end MatrixCode
