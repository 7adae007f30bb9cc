import Mathlib
import MatrixCode.Matrix.Echelon
import MatrixCode.Proofs.Entries

/-!
Elimination in exact arithmetic. With rational numbers in place of doubles, the result is in reduced row echelon
form whatever the matrix is: a column without a usable pivot is cleared, so that what was too small to divide by
does not come back. Where all that was cleared was zero anyway, the result has been reached by row operations.
-/

namespace MatrixCode

/-- Exact numbers, with the same bound for what counts as zero. -/
def Arithmetic.rational : Arithmetic ℚ where
  zero := 0
  sub := (· - ·)
  mul := (· * ·)
  div := (· / ·)
  isZero x := x = 0
  negligible x := |x| ≤ 1e-12
  atMost x y := |x| ≤ |y|

namespace Matrix

/-- The entries as a function of row and column. -/
def table (m : Matrix ℚ) (rows cols : Nat) := Matrix.of fun (i : Fin rows) (j : Fin cols) => m.entry i j

/-- The rows from `lead` on vanish in the columns before `col`. -/
def VanishesFrom (m : Matrix ℚ) (lead col : Nat) : Prop :=
  ∀ i < m.rows, lead ≤ i → ∀ j < col, m.entry i j = 0

theorem vanishesFrom_zero (m : Matrix ℚ) (lead : Nat) : m.VanishesFrom lead 0 :=
  fun _ _ _ j hj => absurd hj (Nat.not_lt_zero j)

/-- One more column, perhaps for fewer rows. -/
theorem VanishesFrom.succ {m : Matrix ℚ} {lead lead' col : Nat} (vanishes : m.VanishesFrom lead col)
    (fewer : lead ≤ lead') (here : ∀ i < m.rows, lead' ≤ i → m.entry i col = 0) :
    m.VanishesFrom lead' (col + 1) := by
  intro i hi low j hj
  rcases Nat.lt_succ_iff_lt_or_eq.mp hj with done | rfl
  · exact vanishes i hi (fewer.trans low) j done
  · exact here i hi low

section Pivot

variable (m : Matrix ℚ) (col row : Nat) (rows : List Nat)

theorem pivotRow_mem : pivotRow .rational m col row rows ∈ row :: rows := by
  induction rows generalizing row with
  | nil => exact List.mem_singleton_self row
  | cons r rows ih =>
      rw [pivotRow]
      split
      · exact List.mem_cons_of_mem row (ih r)
      · rcases List.mem_cons.mp (ih row) with same | mem
        · exact List.mem_cons.mpr (.inl same)
        · exact List.mem_cons_of_mem row (List.mem_cons_of_mem r mem)

theorem abs_entry_le_pivotRow {i : Nat} (listed : i ∈ row :: rows) :
    |m.entry i col| ≤ |m.entry (pivotRow .rational m col row rows) col| := by
  induction rows generalizing row i with
  | nil => exact List.mem_singleton.mp listed ▸ le_rfl
  | cons r rows ih =>
      have first (s : Nat) := ih s List.mem_cons_self
      rw [pivotRow]
      split
      · next larger =>
          have larger : |m.entry row col| ≤ |m.entry r col| := of_decide_eq_true larger
          rcases List.mem_cons.mp listed with rfl | listed
          · exact larger.trans (first r)
          · exact ih r listed
      · next smaller =>
          have smaller : |m.entry r col| < |m.entry row col| :=
            not_le.mp fun larger => smaller (decide_eq_true larger)
          rcases List.mem_cons.mp listed with rfl | listed
          · exact first i
          · rcases List.mem_cons.mp listed with rfl | listed
            · exact smaller.le.trans (first row)
            · exact ih row (List.mem_cons_of_mem row listed)

end Pivot

/-- Exchanges two rows, divides the first by its entry in a column, and subtracts it from the others. -/
def pivotStep (m : Matrix ℚ) (lead col pivot : Nat) : Matrix ℚ :=
  eliminate .rational (normalizeRow .rational (swapRows m lead pivot) lead col) lead col

section Entries

variable {m : Matrix ℚ} {lead col pivot i j : Nat}

theorem entry_clearColumn (hi : i < m.rows) (hj : j < m.cols) :
    (clearColumn .rational m lead col).entry i j = if lead ≤ i ∧ j = col then 0 else m.entry i j :=
  entry_build _ hi hj

theorem entry_swapRows (hi : i < m.rows) (hj : j < m.cols) :
    (swapRows m lead pivot).entry i j =
      m.entry (if i = lead then pivot else if i = pivot then lead else i) j := entry_build _ hi hj

theorem entry_pivotStep_lead (hl : lead < m.rows) (hc : col < m.cols) (hj : j < m.cols) :
    (pivotStep m lead col pivot).entry lead j = m.entry pivot j / m.entry pivot col := by
  have swapped {k : Nat} (hk : k < m.cols) : (swapRows m lead pivot).entry lead k = m.entry pivot k := by
    rw [entry_swapRows hl hk, if_pos rfl]
  refine (entry_build _ hl hj).trans ?_
  rw [if_pos (.inl rfl)]
  refine (entry_build _ hl hj).trans ?_
  rw [if_pos rfl, swapped hj, swapped hc]
  rfl

theorem entry_pivotStep_of_ne (hl : lead < m.rows) (hc : col < m.cols) (hi : i < m.rows) (hj : j < m.cols)
    (other : i ≠ lead) :
    (pivotStep m lead col pivot).entry i j = (swapRows m lead pivot).entry i j -
      (swapRows m lead pivot).entry i col * (m.entry pivot j / m.entry pivot col) := by
  have normal {k : Nat} (hk : k < m.cols) :
      (normalizeRow .rational (swapRows m lead pivot) lead col).entry i k =
        (swapRows m lead pivot).entry i k := by
    refine (entry_build _ hi hk).trans ?_
    rw [if_neg other]
  have pivotRow : (normalizeRow .rational (swapRows m lead pivot) lead col).entry lead j =
      m.entry pivot j / m.entry pivot col := by
    refine (entry_build _ hl hj).trans ?_
    rw [if_pos rfl, entry_swapRows hl hj, entry_swapRows hl hc, if_pos rfl]
    rfl
  refine (entry_build _ hi hj).trans ?_
  rw [normal hc, normal hj, pivotRow]
  split
  · next zero =>
      have zero : (swapRows m lead pivot).entry i col = 0 :=
        of_decide_eq_true (zero.resolve_left other)
      rw [zero, zero_mul, sub_zero]
  · rfl

/-- The column of the pivot becomes a unit column. -/
theorem entry_pivotStep_col (hl : lead < m.rows) (hc : col < m.cols) (hi : i < m.rows)
    (nonzero : m.entry pivot col ≠ 0) :
    (pivotStep m lead col pivot).entry i col = if i = lead then 1 else 0 := by
  split
  · next same => rw [same, entry_pivotStep_lead hl hc hc, div_self nonzero]
  · next other => rw [entry_pivotStep_of_ne hl hc hi hc other, div_self nonzero, mul_one, sub_self]

/-- Columns in which both rows vanish do not change. -/
theorem entry_pivotStep_of_zero (hl : lead < m.rows) (hc : col < m.cols) (hi : i < m.rows)
    (hj : j < m.cols) (zero : m.entry lead j = 0) (zero' : m.entry pivot j = 0) :
    (pivotStep m lead col pivot).entry i j = m.entry i j := by
  by_cases same : i = lead
  · rw [same, entry_pivotStep_lead hl hc hj, zero, zero', zero_div]
  · rw [entry_pivotStep_of_ne hl hc hi hj same, zero', zero_div, mul_zero, sub_zero, entry_swapRows hi hj,
      if_neg same]
    split
    · next same' => rw [same', zero, zero']
    · rfl

end Entries

end Matrix

/-- Where elimination stands: a matrix, the first row that has no pivot, and the column whose turn it is. -/
structure Elimination where
  matrix : Matrix ℚ
  lead : Nat
  col : Nat

namespace Elimination

open MatrixCode.Matrix

/-- The row that is to give the next pivot. -/
def pivot (s : Elimination) : Nat :=
  pivotRow .rational s.matrix s.col s.lead (List.range' (s.lead + 1) (s.matrix.rows - s.lead - 1))

/-- The column has no usable pivot. -/
def skips (s : Elimination) : Bool := Arithmetic.rational.negligible (s.matrix.entry s.pivot s.col)

/-- One round of elimination. -/
def next (s : Elimination) : Elimination :=
  if s.skips then ⟨clearColumn .rational s.matrix s.lead s.col, s.lead, s.col + 1⟩
  else ⟨pivotStep s.matrix s.lead s.col s.pivot, s.lead + 1, s.col + 1⟩

/-- Elimination starts at the first row and column. -/
def start (a : Matrix ℚ) : Elimination := ⟨a, 0, 0⟩

/-- What elimination gives after at most so many rounds. -/
def result (s : Elimination) (left : Nat) : Matrix ℚ := reduceFrom .rational s.matrix s.lead s.col left

variable {s : Elimination}

theorem result_succ (left : Nat) :
    s.result (left + 1) = if s.matrix.rows ≤ s.lead then s.matrix else s.next.result left := by
  rw [result, reduceFrom, next, skips, pivot]
  by_cases done : s.matrix.rows ≤ s.lead
  · rw [if_pos done, if_pos done]
  · rw [if_neg done, if_neg done]
    simp only
    split <;> rfl

theorem next_col : s.next.col = s.col + 1 := by
  rw [next]
  split <;> rfl

theorem next_rows : s.next.matrix.rows = s.matrix.rows := by
  rw [next]
  split <;> rfl

theorem next_cols : s.next.matrix.cols = s.matrix.cols := by
  rw [next]
  split <;> rfl

theorem pivot_spec (hl : s.lead < s.matrix.rows) :
    s.lead ≤ s.pivot ∧ s.pivot < s.matrix.rows ∧ ∀ i, s.lead ≤ i → i < s.matrix.rows →
      |s.matrix.entry i s.col| ≤ |s.matrix.entry s.pivot s.col| := by
  have candidate (i : Nat) : i ∈ s.lead :: List.range' (s.lead + 1) (s.matrix.rows - s.lead - 1) ↔
      s.lead ≤ i ∧ i < s.matrix.rows := by
    rw [List.mem_cons, List.mem_range'_1]
    omega
  obtain ⟨low, high⟩ := (candidate _).mp (pivotRow_mem ..)
  exact ⟨low, high, fun i hi hi' => abs_entry_le_pivotRow _ _ _ _ ((candidate i).mpr ⟨hi, hi'⟩)⟩

theorem skips_iff : s.skips = true ↔ |s.matrix.entry s.pivot s.col| ≤ 1e-12 := decide_eq_true_iff

theorem skips_of_zero (zero : s.matrix.entry s.pivot s.col = 0) : s.skips = true := by
  rw [skips_iff, zero]
  norm_num

theorem not_skips_of_one (one : s.matrix.entry s.pivot s.col = 1) : ¬s.skips = true := by
  rw [skips_iff, one]
  norm_num

/-- The rows that are done have their pivots in the columns listed, which are unit columns; the other rows vanish
in all columns that are done. -/
structure Reduced (s : Elimination) (pivots : List Nat) : Prop where
  lead_eq : pivots.length = s.lead
  col_le : s.col ≤ s.matrix.cols
  increasing : pivots.Pairwise (· < ·)
  before : ∀ p ∈ pivots, p < s.col
  unit : ∀ k p, pivots[k]? = some p → ∀ i < s.matrix.rows, s.matrix.entry i p = if i = k then 1 else 0
  left : ∀ k p, pivots[k]? = some p → ∀ j < p, s.matrix.entry k j = 0
  below : s.matrix.VanishesFrom s.lead s.col

theorem reduced_start (a : Matrix ℚ) : (start a).Reduced [] where
  lead_eq := rfl
  col_le := Nat.zero_le _
  increasing := .nil
  before := by simp
  unit := by simp
  left := by simp
  below := vanishesFrom_zero a 0

namespace Reduced

variable {pivots : List Nat}

section Rounds

variable {m : Matrix ℚ} (reduced : s.Reduced pivots) (hl : s.lead < s.matrix.rows)
  (hc : s.col < s.matrix.cols) (rows : m.rows = s.matrix.rows) (cols : m.cols = s.matrix.cols)
  (kept : ∀ i < s.matrix.rows, ∀ j < s.col, m.entry i j = s.matrix.entry i j)

include reduced hl rows kept in
/-- A pivot stays one as long as the columns that are done do not change. -/
theorem pivot_kept {k p : Nat} (found : pivots[k]? = some p) :
    (∀ i < m.rows, m.entry i p = if i = k then 1 else 0) ∧ ∀ j < p, m.entry k j = 0 := by
  have done := reduced.before p (List.mem_of_getElem? found)
  have inside := (List.getElem?_eq_some_iff.mp found).1
  have lead := reduced.lead_eq
  constructor
  · intro i hi
    rw [kept i (rows ▸ hi) p done, reduced.unit k p found i (rows ▸ hi)]
  · intro j hj
    rw [kept k (by omega) j (by omega), reduced.left k p found j hj]

include reduced rows kept in
theorem below_kept : m.VanishesFrom s.lead s.col := by
  intro i hi low j hj
  rw [kept i (rows ▸ hi) j hj, reduced.below i (rows ▸ hi) low j hj]

include reduced hl hc rows cols kept in
/-- Clearing one more column. -/
theorem skip (cleared : ∀ i < s.matrix.rows, s.lead ≤ i → m.entry i s.col = 0) :
    Reduced ⟨m, s.lead, s.col + 1⟩ pivots where
  lead_eq := reduced.lead_eq
  col_le := cols ▸ hc
  increasing := reduced.increasing
  before p mem := Nat.lt_succ_of_lt (reduced.before p mem)
  unit _ _ found := (reduced.pivot_kept hl rows kept found).1
  left _ _ found := (reduced.pivot_kept hl rows kept found).2
  below := (reduced.below_kept rows kept).succ le_rfl fun i hi => cleared i (rows ▸ hi)

include reduced hl hc rows cols kept in
/-- Making one more column a unit column. -/
theorem pivot (made : ∀ i < s.matrix.rows, m.entry i s.col = if i = s.lead then 1 else 0) :
    Reduced ⟨m, s.lead + 1, s.col + 1⟩ (pivots ++ [s.col]) := by
  have pivotOf {k p : Nat} (found : (pivots ++ [s.col])[k]? = some p) :
      (∀ i < m.rows, m.entry i p = if i = k then 1 else 0) ∧ ∀ j < p, m.entry k j = 0 := by
    rcases Nat.lt_or_ge k pivots.length with old | new
    · rw [List.getElem?_append_left old] at found
      exact reduced.pivot_kept hl rows kept found
    · rw [List.getElem?_append_right new, List.getElem?_singleton, Option.ite_none_right_eq_some] at found
      obtain ⟨zero, same⟩ := found
      obtain rfl := Option.some.inj same
      obtain rfl : k = s.lead := by
        have := reduced.lead_eq
        omega
      refine ⟨fun i hi => made i (rows ▸ hi), fun j hj => ?_⟩
      rw [kept s.lead hl j hj, reduced.below s.lead hl le_rfl j hj]
  exact {
    lead_eq := by simp [reduced.lead_eq]
    col_le := cols ▸ hc
    increasing := List.pairwise_append.mpr ⟨reduced.increasing, List.pairwise_singleton .., fun p mem q last =>
      List.mem_singleton.mp last ▸ reduced.before p mem⟩
    before := fun p mem => by
      rcases List.mem_append.mp mem with mem | last
      · exact Nat.lt_succ_of_lt (reduced.before p mem)
      · exact List.mem_singleton.mp last ▸ Nat.lt_succ_self _
    unit := fun _ _ found => (pivotOf found).1
    left := fun _ _ found => (pivotOf found).2
    below := (reduced.below_kept rows kept).succ (Nat.le_succ s.lead) fun i hi low => by
      rw [made i (rows ▸ hi), if_neg (Nat.ne_of_gt low)] }

end Rounds

theorem next (reduced : s.Reduced pivots) (hl : s.lead < s.matrix.rows) (hc : s.col < s.matrix.cols) :
    ∃ pivots', s.next.Reduced pivots' := by
  rw [Elimination.next]
  cases skipped : s.skips with
  | true =>
      rw [if_pos rfl]
      refine ⟨pivots, reduced.skip hl hc rfl rfl (fun i hi j hj => ?_) fun i hi low => ?_⟩
      · rw [entry_clearColumn hi (by omega), if_neg (by omega)]
      · rw [entry_clearColumn hi hc, if_pos ⟨low, rfl⟩]
  | false =>
      obtain ⟨low, high, -⟩ := pivot_spec hl
      rw [if_neg Bool.false_ne_true]
      refine ⟨pivots ++ [s.col], reduced.pivot hl hc rfl rfl (fun i hi j hj => ?_) fun i hi => ?_⟩
      · exact entry_pivotStep_of_zero hl hc hi (by omega) (reduced.below _ hl le_rfl j hj)
          (reduced.below _ high low j hj)
      · exact entry_pivotStep_col hl hc hi fun zero =>
          absurd (skips_of_zero zero) (Bool.eq_false_iff.mp skipped)

theorem result {left : Nat} (reduced : s.Reduced pivots) (remaining : s.col + left = s.matrix.cols) :
    ∃ lead col pivots', Reduced ⟨s.result left, lead, col⟩ pivots' ∧
      ((s.result left).rows ≤ lead ∨ col = (s.result left).cols) := by
  induction left generalizing s pivots with
  | zero => exact ⟨s.lead, s.col, pivots, reduced, .inr remaining⟩
  | succ left ih =>
      rw [result_succ]
      split
      · next done => exact ⟨s.lead, s.col, pivots, reduced, .inl done⟩
      · next more =>
          obtain ⟨pivots', reduced'⟩ := reduced.next (Nat.not_le.mp more) (by omega)
          exact ih reduced' (by rw [next_col, next_cols]; omega)

/-- At the end, whether of the rows or of the columns, the rows without a pivot vanish, and the form is reached. -/
theorem isReducedRowEchelon (reduced : s.Reduced pivots)
    (ended : s.matrix.rows ≤ s.lead ∨ s.col = s.matrix.cols) :
    (s.matrix.table s.matrix.rows s.matrix.cols).IsReducedRowEchelon := by
  have pivotOf (i : Fin s.matrix.rows) (j : Fin s.matrix.cols) (nonzero : s.matrix.entry i j ≠ 0) :
      ∃ p, pivots[i.val]? = some p := by
    have small : i.val < pivots.length := by
      by_contra low
      have := reduced.lead_eq
      refine nonzero (reduced.below i i.isLt (by omega) j ?_)
      have := j.isLt
      have := i.isLt
      omega
    exact ⟨_, List.getElem?_eq_getElem small⟩
  have one (i : Fin s.matrix.rows) {p : Nat} (found : pivots[i.val]? = some p) :
      s.matrix.entry i p = 1 := by
    rw [reduced.unit i p found i i.isLt, if_pos rfl]
  have leading {i : Fin s.matrix.rows} {c : Fin s.matrix.cols}
      (lead : (s.matrix.table _ _).IsLeadingEntry i c) : pivots[i.val]? = some c.val := by
    obtain ⟨zero, nonzero⟩ := lead
    obtain ⟨p, found⟩ := pivotOf i c nonzero
    rcases Nat.lt_trichotomy p c with early | rfl | late
    · cases (one i found).symm.trans (zero ⟨p, by omega⟩ early)
    · exact found
    · exact absurd (reduced.left i p found c late) nonzero
  refine ⟨fun i₁ i₂ above j zero => ?_, fun i c lead => ?_, fun i₁ i₂ c above lead => ?_⟩
  · by_contra nonzero
    obtain ⟨p₂, found₂⟩ := pivotOf i₂ j nonzero
    obtain ⟨inside, rfl⟩ := List.getElem?_eq_some_iff.mp found₂
    have found₁ : pivots[i₁.val]? = some (pivots[i₁.val]) := List.getElem?_eq_getElem (by omega)
    have right := List.pairwise_iff_getElem.mp reduced.increasing i₁ i₂ (by omega) inside above
    have behind : pivots[i₂.val] ≤ j := Nat.not_lt.mp fun early =>
      nonzero (reduced.left i₂ _ found₂ j early)
    cases (one i₁ found₁).symm.trans (zero ⟨_, by omega⟩ (Nat.lt_of_lt_of_le right behind))
  · exact one i (leading lead)
  · have unit := reduced.unit _ _ (leading lead) i₁ i₁.isLt
    rwa [if_neg (by simpa using (Fin.lt_def.mp above).ne)] at unit

end Reduced

theorem next_of_skips (skipped : s.skips = true)
    (zeros : ∀ i < s.matrix.rows, s.lead ≤ i → s.matrix.entry i s.col = 0) :
    s.next = ⟨s.matrix, s.lead, s.col + 1⟩ := by
  have same : clearColumn .rational s.matrix s.lead s.col = s.matrix := by
    refine build_eq rfl fun i j hi hj => ?_
    split
    · next cleared => rw [cleared.2, zeros i hi cleared.1]; rfl
    · rfl
  rw [next, if_pos skipped, same]

/-- A round that finds a unit column with its one in the row whose turn it is changes nothing. -/
theorem next_of_unit (hl : s.lead < s.matrix.rows) (hc : s.col < s.matrix.cols)
    (unit : ∀ i < s.matrix.rows, s.matrix.entry i s.col = if i = s.lead then 1 else 0) :
    s.next = ⟨s.matrix, s.lead + 1, s.col + 1⟩ := by
  obtain ⟨-, high, largest⟩ := pivot_spec hl
  have lead : s.matrix.entry s.lead s.col = 1 := by rw [unit _ hl, if_pos rfl]
  have pivot : s.pivot = s.lead := by
    by_contra other
    have smaller := largest s.lead le_rfl hl
    rw [lead, unit _ high, if_neg other] at smaller
    norm_num at smaller
  have same : pivotStep s.matrix s.lead s.col s.lead = s.matrix := by
    refine ext_entry rfl fun i j (hi : i < s.matrix.rows) (hj : j < s.matrix.cols) => ?_
    by_cases top : i = s.lead
    · rw [top, entry_pivotStep_lead hl hc hj, lead, div_one]
    · have unswapped {k : Nat} (hk : k < s.matrix.cols) :
          (swapRows s.matrix s.lead s.lead).entry i k = s.matrix.entry i k := by
        rw [entry_swapRows hi hk, if_neg top, if_neg top]
      rw [entry_pivotStep_of_ne hl hc hi hj top, unswapped hj, unswapped hc, unit i hi, if_neg top, zero_mul,
        sub_zero]
  rw [next, if_neg (not_skips_of_one (pivot ▸ lead)), pivot, same]

section Fixed

variable {m : Matrix ℚ} (form : (m.table m.rows m.cols).IsReducedRowEchelon)

include form in
/-- A round leaves a matrix in the form alone, if the rows that have no pivot yet begin at its column or later. -/
theorem next_of_isReducedRowEchelon {lead col : Nat} (hl : lead < m.rows) (hc : col < m.cols)
    (below : m.VanishesFrom lead col) :
    ∃ lead', next ⟨m, lead, col⟩ = ⟨m, lead', col + 1⟩ ∧ m.VanishesFrom lead' (col + 1) := by
  have under (i : Nat) (hi : i < m.rows) (low : lead < i) : m.entry i col = 0 :=
    @form.isRowEchelon ⟨lead, hl⟩ ⟨i, hi⟩ low ⟨col, hc⟩ fun j before => below lead hl le_rfl j before
  by_cases zero : m.entry lead col = 0
  · have zeros (i : Nat) (hi : i < m.rows) (low : lead ≤ i) : m.entry i col = 0 := by
      rcases low.eq_or_lt with rfl | low
      · exact zero
      · exact under i hi low
    obtain ⟨low, high, -⟩ := pivot_spec (s := ⟨m, lead, col⟩) hl
    exact ⟨lead, next_of_skips (skips_of_zero (zeros _ high low)) zeros, below.succ le_rfl zeros⟩
  · have leading : (m.table m.rows m.cols).IsLeadingEntry ⟨lead, hl⟩ ⟨col, hc⟩ :=
      ⟨fun j before => below lead hl le_rfl j before, zero⟩
    have unit (i : Nat) (hi : i < m.rows) : m.entry i col = if i = lead then 1 else 0 := by
      split
      · next same => exact same ▸ form.eq_one leading
      · next other =>
          exact form.eq_zero_of_ne_of_isLeadingEntry (Fin.ne_of_val_ne other : (⟨i, hi⟩ : Fin m.rows) ≠ _) leading
    exact ⟨lead + 1, next_of_unit hl hc unit, below.succ (Nat.le_succ lead) under⟩

include form in
theorem result_of_isReducedRowEchelon {lead col left : Nat} (remaining : col + left = m.cols)
    (below : m.VanishesFrom lead col) : result ⟨m, lead, col⟩ left = m := by
  induction left generalizing lead col with
  | zero => rfl
  | succ left ih =>
      rw [result_succ]
      split
      · rfl
      · next more =>
          obtain ⟨lead', same, below'⟩ :=
            next_of_isReducedRowEchelon form (Nat.not_le.mp more) (by omega) below
          rw [same]
          exact ih (by omega) below'

end Fixed

/-- The candidates for a pivot are all zero where none of them is usable. -/
def SkipsZeros (s : Elimination) : Prop :=
  s.lead < s.matrix.rows → s.skips = true → ∀ i < s.matrix.rows, s.lead ≤ i → s.matrix.entry i s.col = 0

instance : Decidable s.SkipsZeros :=
  inferInstanceAs (Decidable (_ → _ → ∀ i < s.matrix.rows, s.lead ≤ i → s.matrix.entry i s.col = 0))

theorem shape_result (left : Nat) : (s.result left).shape = s.matrix.shape := by
  induction left generalizing s with
  | zero => rfl
  | succ left ih =>
      rw [result_succ]
      split
      · rfl
      · exact ih.trans (Prod.ext next_rows next_cols)

end Elimination

/-- The second matrix comes from the first by invertible row operations. -/
def RowEquivalent (rows cols : Nat) (a b : Matrix ℚ) : Prop :=
  ∃ p : Matrix.GeneralLinearGroup (Fin rows) ℚ, p.val * a.table rows cols = b.table rows cols

namespace RowEquivalent

open MatrixCode.Matrix Elimination

variable {rows cols : Nat} {a b c m : Matrix ℚ} {s : Elimination}

theorem refl : RowEquivalent rows cols a a := ⟨1, Matrix.one_mul _⟩

theorem trans : RowEquivalent rows cols a b → RowEquivalent rows cols b c → RowEquivalent rows cols a c := by
  rintro ⟨p, hp⟩ ⟨q, hq⟩
  exact ⟨q * p, by rw [Units.val_mul, Matrix.mul_assoc, hp, hq]⟩

theorem swapRows {lead pivot : Nat} (hl : lead < m.rows) (hp : pivot < m.rows) :
    RowEquivalent m.rows m.cols m (m.swapRows lead pivot) := by
  refine ⟨Matrix.GeneralLinearGroup.swap ℚ ⟨lead, hl⟩ ⟨pivot, hp⟩, ?_⟩
  ext i j
  refine Eq.trans ?_ (entry_swapRows i.isLt j.isLt).symm
  split
  · next same =>
      obtain rfl : i = ⟨lead, hl⟩ := Fin.ext same
      exact Matrix.swap_mul_apply_left ..
  · next other =>
      split
      · next same =>
          obtain rfl : i = ⟨pivot, hp⟩ := Fin.ext same
          exact Matrix.swap_mul_apply_right ..
      · next other' => exact Matrix.swap_mul_of_ne (Fin.ne_of_val_ne other) (Fin.ne_of_val_ne other') _

/-- Adding multiples of one row to the rows, to itself too as long as something is left of it. -/
theorem addMultiples {lead : Nat} (hl : lead < rows) (u : Nat → ℚ) (left : 1 + u lead ≠ 0)
    (sum : ∀ i < rows, ∀ j < cols, b.entry i j = a.entry i j + u i * a.entry lead j) :
    RowEquivalent rows cols a b := by
  let e : Fin rows → ℚ := Pi.single ⟨lead, hl⟩ 1
  have det : (1 + Matrix.vecMulVec (fun i => u i.val) e).det ≠ 0 := by
    rwa [Matrix.vecMulVec_eq Unit, Matrix.det_one_add_replicateCol_mul_replicateRow, single_one_dotProduct]
  refine ⟨Matrix.GeneralLinearGroup.mkOfDetNeZero _ det, ?_⟩
  ext i j
  rw [Matrix.GeneralLinearGroup.val_mkOfDetNeZero, Matrix.add_mul, Matrix.one_mul, Matrix.vecMulVec_mul,
    Matrix.single_one_vecMul]
  exact (sum i i.isLt j j.isLt).symm

theorem pivotStep {lead col pivot : Nat} (hl : lead < m.rows) (hc : col < m.cols) (hp : pivot < m.rows)
    (nonzero : m.entry pivot col ≠ 0) :
    RowEquivalent m.rows m.cols m (m.pivotStep lead col pivot) := by
  -- After the exchange all rows change by multiples of the pivot row, which itself becomes its quotient.
  refine (swapRows hl hp).trans (addMultiples (a := m.swapRows lead pivot) hl (fun i =>
    if i = lead then 1 / m.entry pivot col - 1
    else -((m.swapRows lead pivot).entry i col / m.entry pivot col)) ?_ fun i hi j hj => ?_)
  · simpa using nonzero
  · have top : (m.swapRows lead pivot).entry lead j = m.entry pivot j := by
      rw [entry_swapRows hl hj, if_pos rfl]
    by_cases same : i = lead
    · rw [same, entry_pivotStep_lead hl hc hj, top, if_pos rfl]
      ring
    · rw [entry_pivotStep_of_ne hl hc hi hj same, top, if_neg same]
      ring

theorem next (hl : s.lead < s.matrix.rows) (hc : s.col < s.matrix.cols) (zeros : s.SkipsZeros) :
    RowEquivalent s.matrix.rows s.matrix.cols s.matrix s.next.matrix := by
  cases skipped : s.skips with
  | true =>
      rw [next_of_skips skipped (zeros hl skipped)]
      exact refl
  | false =>
      have usable := Bool.eq_false_iff.mp skipped
      rw [Elimination.next, if_neg usable]
      exact pivotStep hl hc (pivot_spec hl).2.1 fun zero => usable (skips_of_zero zero)

theorem result {left : Nat} (remaining : s.col + left = s.matrix.cols)
    (zeros : ∀ k < left, (Elimination.next^[k] s).SkipsZeros) :
    RowEquivalent s.matrix.rows s.matrix.cols s.matrix (s.result left) := by
  induction left generalizing s with
  | zero => exact refl
  | succ left ih =>
      rw [result_succ]
      split
      · exact refl
      · next more =>
          have first := next (Nat.not_le.mp more) (by omega) (zeros 0 (Nat.succ_pos left))
          have rest := ih (s := s.next) (by rw [next_col, next_cols]; omega) fun k hk =>
            zeros (k + 1) (Nat.succ_lt_succ hk)
          rw [next_rows, next_cols] at rest
          exact first.trans rest

end RowEquivalent

namespace Matrix

/-- Elimination in exact arithmetic keeps the shape and ends in the reduced row echelon form, which it leaves alone.
If all it skips is zero, what it does is a row operation. -/
theorem echelon_reduced (a : Matrix ℚ) :
    let r := echelon .rational a
    r.shape = a.shape ∧ (r.table r.rows r.cols).IsReducedRowEchelon ∧ echelon .rational r = r ∧
      ((∀ k < a.cols, (Elimination.next^[k] (.start a)).SkipsZeros) →
        ∃ p : Matrix.GeneralLinearGroup (Fin a.rows) ℚ,
          p.val * a.table a.rows a.cols = r.table a.rows a.cols) := by
  intro r
  have whole : (Elimination.start a).col + a.cols = a.cols := Nat.zero_add a.cols
  obtain ⟨lead, col, pivots, reduced, ended⟩ := (Elimination.reduced_start a).result whole
  have form : (r.table r.rows r.cols).IsReducedRowEchelon := reduced.isReducedRowEchelon ended
  have fixed : echelon .rational r = r :=
    Elimination.result_of_isReducedRowEchelon form (Nat.zero_add r.cols) (vanishesFrom_zero r 0)
  exact ⟨Elimination.shape_result (s := .start a) a.cols, form, fixed, RowEquivalent.result whole⟩

/-- The first column is skipped, and is zero. -/
theorem echelon_reduced_zeroColumn :
    let a : Matrix ℚ := ⟨3, 3, #[0, 2, 4, 0, 1, 2, 0, 3, 7], rfl⟩
    (Elimination.start a).skips = true ∧ (∀ k < a.cols, (Elimination.next^[k] (.start a)).SkipsZeros) ∧
      ∃ p : Matrix.GeneralLinearGroup (Fin 3) ℚ, p.val * a.table 3 3 = (echelon .rational a).table 3 3 := by
  refine ⟨by decide +kernel, by decide +kernel, ?_⟩
  exact (echelon_reduced ⟨3, 3, #[0, 2, 4, 0, 1, 2, 0, 3, 7], rfl⟩).2.2.2 (by decide +kernel)

-- An entry too small for a pivot is lost, and no row operation does that.
example : (echelon .rational ⟨1, 1, #[1e-13], rfl⟩).elements = #[0] := by decide +kernel

end Matrix
end MatrixCode
