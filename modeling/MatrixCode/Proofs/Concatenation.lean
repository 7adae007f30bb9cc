import Mathlib.Algebra.BigOperators.Ring.List
import Mathlib.Algebra.Order.BigOperators.Group.List
import MatrixCode.Matrix.Assembly
import MatrixCode.Proofs.Entries
import MatrixCode.Proofs.Reading

/-!
Block matrices. The items of a row are pasted side by side and the rows below each other, and what has no
elements is left out. But it still counts for the width of its row and for the height of the whole. So no
element is lost, and zeros are filled in exactly where an item without elements takes up room: one with
columns beside items with rows, or a row of items with rows only among rows with columns.
-/

namespace MatrixCode

/-! Places in a line of intervals that follow each other. -/

namespace Tiling

/-- In a line of intervals of the given widths, `x` is place `y` of interval `k`. -/
def At (widths : List Nat) (k y x : Nat) : Prop :=
  ∃ width, widths[k]? = some width ∧ y < width ∧ x = (widths.take k).sum + y

variable {width : Nat} {widths : List Nat} {k l x y z : Nat}

theorem not_at_nil : ¬At [] k y x := by
  rintro ⟨_, found, -⟩
  simp at found

theorem at_cons_zero : At (width :: widths) 0 y x ↔ x = y ∧ y < width := by
  simp [At, and_comm]

theorem at_cons_succ : At (width :: widths) (k + 1) y x ↔ width ≤ x ∧ At widths k y (x - width) := by
  constructor
  · rintro ⟨w, found, inside, rfl⟩
    simp only [List.take_succ_cons, List.sum_cons]
    exact ⟨by omega, w, found, inside, by omega⟩
  · rintro ⟨above, w, found, inside, place⟩
    refine ⟨w, found, inside, ?_⟩
    simp only [List.take_succ_cons, List.sum_cons]
    omega

theorem At.lt_sum (place : At widths k y x) : x < widths.sum := by
  induction widths generalizing k x with
  | nil => exact absurd place not_at_nil
  | cons width widths ih =>
      rw [List.sum_cons]
      cases k with
      | zero =>
          obtain ⟨rfl, inside⟩ := at_cons_zero.mp place
          omega
      | succ k =>
          obtain ⟨above, rest⟩ := at_cons_succ.mp place
          have := ih rest
          omega

/-- Every place up to the end of the line is in an interval. -/
theorem exists_at (inside : x < widths.sum) : ∃ k y, At widths k y x := by
  induction widths generalizing x with
  | nil => simp at inside
  | cons width widths ih =>
      rw [List.sum_cons] at inside
      by_cases here : x < width
      · exact ⟨0, x, at_cons_zero.mpr ⟨rfl, here⟩⟩
      · obtain ⟨k, y, place⟩ := ih (x := x - width) (by omega)
        exact ⟨k + 1, y, at_cons_succ.mpr ⟨Nat.not_lt.mp here, place⟩⟩

/-- No place is in two intervals. -/
theorem At.unique (place : At widths k y x) (other : At widths l z x) : k = l ∧ y = z := by
  induction widths generalizing k l x with
  | nil => exact absurd place not_at_nil
  | cons width widths ih =>
      cases k with
      | zero =>
          obtain ⟨rfl, inside⟩ := at_cons_zero.mp place
          cases l with
          | zero => exact ⟨rfl, (at_cons_zero.mp other).1⟩
          | succ l => exact absurd (at_cons_succ.mp other).1 (Nat.not_le.mpr inside)
      | succ k =>
          obtain ⟨above, rest⟩ := at_cons_succ.mp place
          cases l with
          | zero =>
              obtain ⟨rfl, inside⟩ := at_cons_zero.mp other
              exact absurd above (Nat.not_le.mpr inside)
          | succ l =>
              obtain ⟨rfl, same⟩ := ih rest (at_cons_succ.mp other).2
              exact ⟨rfl, same⟩

theorem at_map {β : Type} {f : β → Nat} {items : List β} {item : β} (found : items[k]? = some item) :
    At (items.map f) k y x ↔ y < f item ∧ x = ((items.take k).map f).sum + y := by
  simp [At, found, ← List.map_take]

theorem At.exists_item {β : Type} {f : β → Nat} {items : List β} (place : At (items.map f) k y x) :
    ∃ item, items[k]? = some item := by
  obtain ⟨_, found, -⟩ := place
  rw [List.getElem?_map, Option.map_eq_some_iff] at found
  exact found.imp fun _ => And.left

end Tiling

namespace Matrix

variable {α : Type}

/-! The measures of items and of rows of items. -/

/-- The columns that an item takes up in its row. -/
def span (m : Matrix α) : Nat := if m.isEmpty then 0 else m.cols

theorem isEmpty_iff {m : Matrix α} : m.isEmpty ↔ m.rows = 0 ∨ m.cols = 0 := by
  simp [isEmpty, size]

/-- The height of a block is that of its highest item. -/
def height (items : List (Matrix α)) : Nat := (items.map rows).foldl Nat.max 0

/-- The width of a block; items without elements count. -/
def width (items : List (Matrix α)) : Nat := (items.map cols).sum

/-- The rows that a block takes up in the whole. -/
def depth (items : List (Matrix α)) : Nat :=
  if height items = 0 ∨ width items = 0 then 0 else height items

/-- The width of the whole is that of its widest block. -/
def breadth (rows : List (List (Matrix α))) : Nat := (rows.map width).foldl Nat.max 0

theorem foldl_max_eq_zero {start : Nat} {xs : List Nat} :
    xs.foldl Nat.max start = 0 ↔ start = 0 ∧ ∀ x ∈ xs, x = 0 := by
  induction xs generalizing start with
  | nil => simp
  | cons x xs ih =>
      rw [List.foldl_cons, ih, List.forall_mem_cons, ← and_assoc]
      exact and_congr_left' Nat.max_eq_zero_iff

theorem height_eq_zero {items : List (Matrix α)} : height items = 0 ↔ ∀ m ∈ items, m.rows = 0 := by
  simp [height, foldl_max_eq_zero]

theorem width_eq_zero {items : List (Matrix α)} : width items = 0 ↔ ∀ m ∈ items, m.cols = 0 := by
  simp [width, List.sum_eq_zero_iff]

theorem breadth_eq_zero {rows : List (List (Matrix α))} :
    breadth rows = 0 ↔ ∀ row ∈ rows, ∀ m ∈ row, m.cols = 0 := by
  simp [breadth, foldl_max_eq_zero, width_eq_zero]

theorem span_le (m : Matrix α) : m.span ≤ m.cols := by
  unfold span
  split <;> omega

theorem lt_span {m : Matrix α} {j : Nat} : j < m.span ↔ m.isEmpty = false ∧ j < m.cols := by
  unfold span
  split <;> simp_all

theorem span_eq_cols {m : Matrix α} : m.span = m.cols ↔ (m.rows = 0 → m.cols = 0) := by
  unfold span
  split
  · next empty =>
      have := isEmpty_iff.mp empty
      omega
  · next full =>
      have := mt isEmpty_iff.mpr full
      omega

theorem depth_eq_height_iff {items : List (Matrix α)} :
    depth items = height items ↔ (width items = 0 → height items = 0) := by
  unfold depth
  split <;> omega

theorem depth_le (items : List (Matrix α)) : depth items ≤ height items := by
  unfold depth
  split <;> omega

theorem sum_span_le (items : List (Matrix α)) : (items.map span).sum ≤ width items :=
  List.sum_le_sum fun m _ => m.span_le

/-! Where an element comes from and where it goes. -/

/-- An element of an item: the row of items, the item in it, and row and column in the item. -/
structure Origin where
  block : Nat
  item : Nat
  row : Nat
  col : Nat

namespace Origin

/-- The origin is in the item `m`. -/
def Of (o : Origin) (rows : List (List (Matrix α))) (m : Matrix α) : Prop :=
  ∃ row, rows[o.block]? = some row ∧ row[o.item]? = some m ∧ o.row < m.rows ∧ o.col < m.cols

/-- Row and column in the whole, when the blocks above take up `weight` rows each and the items to the left
their columns if they have elements. -/
def place (o : Origin) (weight : List (Matrix α) → Nat) (rows : List (List (Matrix α))) : Nat × Nat :=
  (((rows.take o.block).map weight).sum + o.row,
    (((rows.getD o.block []).take o.item).map span).sum + o.col)

theorem Of.isEmpty_eq {o : Origin} {rows : List (List (Matrix α))} {m : Matrix α} (inside : o.Of rows m) :
    m.isEmpty = false := by
  obtain ⟨_, _, _, hr, hc⟩ := inside
  rw [← Bool.not_eq_true, isEmpty_iff]
  omega

end Origin

/-! Room that is taken up without elements. -/

/-- No item without elements takes up room: in a row, items with columns only stand among their like, and
in the whole, rows of items with rows only do. -/
def Flush (rows : List (List (Matrix α))) : Prop :=
  (∀ row ∈ rows, (∀ m ∈ row, m.rows = 0) ∨ ∀ m ∈ row, m.rows = 0 → m.cols = 0) ∧
    ((∀ row ∈ rows, ∀ m ∈ row, m.cols = 0) ∨
      ∀ row ∈ rows, (∀ m ∈ row, m.cols = 0) → ∀ m ∈ row, m.rows = 0)

instance (rows : List (List (Matrix α))) : Decidable (Flush rows) :=
  inferInstanceAs (Decidable (_ ∧ _))

theorem sum_map_eq_iff {β : Type} {f g : β → Nat} {xs : List β} (le : ∀ x ∈ xs, f x ≤ g x) :
    (xs.map f).sum = (xs.map g).sum ↔ ∀ x ∈ xs, f x = g x := by
  induction xs with
  | nil => simp
  | cons x xs ih =>
      obtain ⟨first, rest⟩ := List.forall_mem_cons.mp le
      have total : (xs.map f).sum ≤ (xs.map g).sum := List.sum_le_sum rest
      rw [List.forall_mem_cons, ← ih rest, List.map_cons, List.map_cons, List.sum_cons, List.sum_cons]
      omega

theorem sum_span_eq_iff {items : List (Matrix α)} :
    (items.map span).sum = width items ↔ ∀ m ∈ items, m.rows = 0 → m.cols = 0 := by
  rw [width, sum_map_eq_iff fun m _ => m.span_le]
  simp only [span_eq_cols]

theorem sum_depth_eq_iff {rows : List (List (Matrix α))} :
    (rows.map depth).sum = (rows.map height).sum ↔
      ∀ row ∈ rows, (∀ m ∈ row, m.cols = 0) → ∀ m ∈ row, m.rows = 0 := by
  rw [sum_map_eq_iff fun row _ => depth_le row]
  simp only [depth_eq_height_iff, width_eq_zero, height_eq_zero]

theorem flush_iff {rows : List (List (Matrix α))} :
    Flush rows ↔ (∀ row ∈ rows, height row = 0 ∨ (row.map span).sum = width row) ∧
      (breadth rows = 0 ∨ (rows.map depth).sum = (rows.map height).sum) := by
  simp only [height_eq_zero, sum_span_eq_iff, breadth_eq_zero, sum_depth_eq_iff, Flush]

variable [Inhabited α]

/-- What comes out when items are pasted side by side into a whole. -/
structure Beside (whole : Matrix α) (col : Nat) (items : List (Matrix α)) (out : Matrix α) : Prop where
  shape : out.shape = whole.shape
  high : ∀ m ∈ items, ¬m.isEmpty → m.rows = whole.rows
  placed : ∀ k m i j y, items[k]? = some m → Tiling.At (items.map span) k y j → i < whole.rows →
    col + j < whole.cols → out.entry i (col + j) = m.entry i y
  kept : ∀ i j, i < whole.rows → j < whole.cols → j < col ∨ col + (items.map span).sum ≤ j →
    out.entry i j = whole.entry i j

namespace Beside

variable {whole out item : Matrix α} {col : Nat} {items : List (Matrix α)}

/-- An item without elements takes up no columns. -/
theorem skip (empty : item.isEmpty) (rest : Beside whole col items out) :
    Beside whole col (item :: items) out := by
  have none : item.span = 0 := by simp [span, empty]
  refine ⟨rest.shape, ?_, ?_, ?_⟩
  · exact List.forall_mem_cons.mpr ⟨fun full => absurd empty full, rest.high⟩
  · intro k m i j y found place hi hj
    rw [List.map_cons, none] at place
    cases k with
    | zero => exact absurd (Tiling.at_cons_zero.mp place).2 (Nat.not_lt_zero y)
    | succ k => exact rest.placed k m i j y found (Tiling.at_cons_succ.mp place).2 hi hj
  · intro i j hi hj outside
    refine rest.kept i j hi hj ?_
    simpa [none] using outside

/-- An item as high as the whole fills its columns, and the others go on to the right of it. -/
theorem paste (full : ¬item.isEmpty) (high : item.rows = whole.rows)
    (rest : Beside (whole.paste 0 col item) (col + item.cols) items out) :
    Beside whole col (item :: items) out := by
  have width : item.span = item.cols := by simp [span, full]
  refine ⟨rest.shape, ?_, ?_, ?_⟩
  · exact List.forall_mem_cons.mpr ⟨fun _ => high, rest.high⟩
  · intro k m i j y found place hi hj
    rw [List.map_cons, width] at place
    cases k with
    | zero =>
        obtain ⟨rfl, inside⟩ := Tiling.at_cons_zero.mp place
        obtain rfl : item = m := by simpa using found
        -- what is pasted later stands further right
        rw [rest.kept i (col + j) hi hj (.inl (by omega)), entry_paste whole 0 col item hi hj,
          if_pos (by omega)]
        congr 1
        omega
    | succ k =>
        obtain ⟨above, place⟩ := Tiling.at_cons_succ.mp place
        have shifted : col + j = col + item.cols + (j - item.cols) := by omega
        rw [shifted]
        exact rest.placed k m i _ y found place hi (by rw [← shifted]; exact hj)
  · intro i j hi hj outside
    simp only [List.map_cons, width, List.sum_cons] at outside
    rw [rest.kept i j hi hj (by omega), entry_paste whole 0 col item hi hj, if_neg (by omega)]

theorem of_pasteBeside (pasted : pasteBeside whole col items = .ok out) :
    Beside whole col items out := by
  induction items generalizing whole col with
  | nil =>
      cases pasted
      exact ⟨rfl, by simp, fun k m i j y found => by simp at found, fun _ _ _ _ _ => rfl⟩
  | cons item items ih =>
      rw [pasteBeside] at pasted
      split at pasted
      · next empty => exact (ih pasted).skip empty
      · next full =>
          split at pasted
          · cases pasted
          · next high => exact .paste full (by simpa using high) (ih pasted)

end Beside

/-! Pasting below is pasting beside, with rows and columns exchanged. -/

theorem entry_transpose (m : Matrix α) (i j : Nat) : m.transpose.entry i j = m.entry j i := by
  by_cases inside : i < m.cols ∧ j < m.rows
  · exact entry_build _ inside.1 inside.2
  · exact (if_neg inside).trans (if_neg fun h => inside h.symm).symm

theorem isEmpty_transpose (m : Matrix α) : m.transpose.isEmpty = m.isEmpty := by
  simp [isEmpty, size, transpose, build, or_comm]

theorem transpose_paste (whole block : Matrix α) (r c : Nat) :
    (whole.paste r c block).transpose = whole.transpose.paste c r block.transpose := by
  refine ext_entry rfl fun i j hi hj => ?_
  rw [entry_transpose, entry_paste whole r c block hj hi, entry_paste whole.transpose c r _ hi hj,
    entry_transpose, entry_transpose]
  refine if_congr ?_ rfl rfl
  simp only [transpose, build]
  omega

theorem pasteBeside_transpose {whole out : Matrix α} {row : Nat} {blocks : List (Matrix α)}
    (pasted : pasteBelow whole row blocks = .ok out) :
    pasteBeside whole.transpose row (blocks.map transpose) = .ok out.transpose := by
  induction blocks generalizing whole row with
  | nil =>
      cases pasted
      rfl
  | cons block blocks ih =>
      rw [List.map_cons, pasteBeside, isEmpty_transpose]
      rw [pasteBelow] at pasted
      split at pasted
      · next empty =>
          rw [if_pos empty]
          exact ih pasted
      · next full =>
          rw [if_neg full]
          split at pasted
          · cases pasted
          · next wide =>
              rw [← transpose_paste]
              exact (if_neg wide).trans (ih pasted)

/-! Joining the items of a row, and putting the rows below each other. -/

variable {zero : α} {items : List (Matrix α)} {block : Matrix α} {m : Matrix α}

theorem Beside.of_joinRow (joined : joinRow zero items = .ok block) :
    Beside (fill (height items) (width items) zero) 0 items block := by
  have total : (items.map cols).foldl Nat.add 0 = width items := List.sum_eq_foldl.symm
  have pasted := joined
  simp only [joinRow, total] at pasted
  exact of_pasteBeside pasted

theorem rows_of_joinRow (joined : joinRow zero items = .ok block) : block.rows = height items :=
  congrArg Prod.fst (Beside.of_joinRow joined).shape

theorem cols_of_joinRow (joined : joinRow zero items = .ok block) : block.cols = width items :=
  congrArg Prod.snd (Beside.of_joinRow joined).shape

/-- The item that a column of a block belongs to. -/
theorem entry_joinRow (joined : joinRow zero items = .ok block) {k i j c : Nat} (found : items[k]? = some m)
    (place : Tiling.At (items.map span) k j c) (hi : i < height items) : block.entry i c = m.entry i j := by
  have inside : c < width items := Nat.lt_of_lt_of_le place.lt_sum (sum_span_le items)
  simpa using (Beside.of_joinRow joined).placed k m i c j found place hi (by simpa using! inside)

theorem entry_joinRow_of_le (joined : joinRow zero items = .ok block) {i c : Nat} (hi : i < height items)
    (beyond : (items.map span).sum ≤ c) (hc : c < width items) : block.entry i c = zero :=
  ((Beside.of_joinRow joined).kept i c hi hc (.inr (by omega))).trans (entry_build _ hi hc)

theorem span_transpose_of_joinRow (joined : joinRow zero items = .ok block) :
    block.transpose.span = depth items := by
  have rows := rows_of_joinRow joined
  have cols := cols_of_joinRow joined
  rw [span, depth, isEmpty_transpose, ← rows, ← cols]
  exact if_congr isEmpty_iff rfl rfl

variable {rows : List (List (Matrix α))} {blocks : List (Matrix α)} {row : List (Matrix α)} {out : Matrix α}

/-- The blocks are the rows, joined one by one. -/
abbrev Joined (zero : α) (rows : List (List (Matrix α))) (blocks : List (Matrix α)) : Prop :=
  List.Forall₂ (fun row block => joinRow zero row = .ok block) rows blocks

theorem Joined.of_mapM (joined : rows.mapM (joinRow zero) = .ok blocks) : Joined zero rows blocks :=
  Outcome.forall₂_of_mapM joined

theorem Joined.map_eq {β : Type} {f : List (Matrix α) → β} {g : Matrix α → β} (joined : Joined zero rows blocks)
    (same : ∀ row block, joinRow zero row = .ok block → g block = f row) : blocks.map g = rows.map f := by
  induction joined with
  | nil => rfl
  | cons first _ ih => rw [List.map_cons, List.map_cons, same _ _ first, ih]

theorem Joined.exists_block {k : Nat} (joined : Joined zero rows blocks)
    (found : rows[k]? = some row) : ∃ block, blocks[k]? = some block ∧ joinRow zero row = .ok block := by
  induction joined generalizing k with
  | nil => simp at found
  | cons first _ ih =>
      cases k with
      | zero =>
          cases found
          exact ⟨_, rfl, first⟩
      | succ k => exact ih found

/-- The rows of the whole are joined, and the blocks that come out are pasted below each other. -/
theorem beside_of_concat (joined : concat zero rows = .ok out) :
    ∃ blocks, Joined zero rows blocks ∧
      Beside (fill (rows.map height).sum (breadth rows) zero).transpose 0 (blocks.map transpose)
        out.transpose := by
  unfold concat at joined
  cases all : rows.mapM (joinRow zero) with
  | error => simp [all, bind, Except.bind] at joined
  | ok blocks =>
      have each := Joined.of_mapM all
      have high : (blocks.map Matrix.rows).foldl Nat.add 0 = (rows.map height).sum := by
        rw [each.map_eq fun _ _ => rows_of_joinRow]
        exact List.sum_eq_foldl.symm
      have wide : (blocks.map Matrix.cols).foldl Nat.max 0 = breadth rows := by
        rw [each.map_eq fun _ _ => cols_of_joinRow]
        rfl
      simp only [all, bind, Except.bind, high, wide] at joined
      exact ⟨blocks, each, .of_pasteBeside (pasteBeside_transpose joined)⟩

theorem rows_of_concat (joined : concat zero rows = .ok out) : out.rows = (rows.map height).sum := by
  obtain ⟨_, _, stacked⟩ := beside_of_concat joined
  exact congrArg Prod.snd stacked.shape

theorem cols_of_concat (joined : concat zero rows = .ok out) : out.cols = breadth rows := by
  obtain ⟨_, _, stacked⟩ := beside_of_concat joined
  exact congrArg Prod.fst stacked.shape

theorem Joined.map_span (joined : Joined zero rows blocks) :
    (blocks.map transpose).map span = rows.map depth := by
  rw [List.map_map]
  exact joined.map_eq fun _ _ => span_transpose_of_joinRow

/-- The block that a row of the whole belongs to. It is as wide as the whole. -/
theorem entry_concat (joined : concat zero rows = .ok out) {k i r : Nat} (found : rows[k]? = some row)
    (place : Tiling.At (rows.map depth) k i r) :
    ∃ block, joinRow zero row = .ok block ∧ width row = out.cols ∧
      ∀ c < out.cols, out.entry r c = block.entry i c := by
  have inside : r < out.rows := by
    rw [rows_of_concat joined]
    exact Nat.lt_of_lt_of_le place.lt_sum (List.sum_le_sum fun row _ => depth_le row)
  obtain ⟨blocks, each, stacked⟩ := beside_of_concat joined
  obtain ⟨block, foundBlock, first⟩ := each.exists_block found
  have turned : (blocks.map transpose)[k]? = some block.transpose := by simp [foundBlock]
  rw [← each.map_span] at place
  have full := (lt_span.mp ((Tiling.at_map turned).mp place).1).1
  refine ⟨block, first, ?_, fun c hc => ?_⟩
  · rw [← cols_of_joinRow first, cols_of_concat joined]
    exact stacked.high _ (List.mem_of_getElem? turned) (by simp [full])
  · rw [rows_of_concat joined] at inside
    rw [cols_of_concat joined] at hc
    have placed := stacked.placed k _ c r i turned place hc (by rwa [Nat.zero_add])
    rwa [Nat.zero_add, entry_transpose, entry_transpose] at placed

theorem entry_concat_of_le (joined : concat zero rows = .ok out) {r c : Nat}
    (below : (rows.map depth).sum ≤ r) (hr : r < out.rows) (hc : c < out.cols) : out.entry r c = zero := by
  rw [rows_of_concat joined] at hr
  rw [cols_of_concat joined] at hc
  obtain ⟨blocks, each, stacked⟩ := beside_of_concat joined
  have kept := stacked.kept c r hc hr (.inr (by rwa [each.map_span, Nat.zero_add]))
  rw [entry_transpose, entry_transpose] at kept
  exact kept.trans (entry_build _ hr hc)

theorem exists_joinRow (joined : concat zero rows = .ok out) (member : row ∈ rows) :
    ∃ block, joinRow zero row = .ok block := by
  obtain ⟨blocks, each, -⟩ := beside_of_concat joined
  obtain ⟨k, found⟩ := List.mem_iff_getElem?.mp member
  obtain ⟨block, -, first⟩ := each.exists_block found
  exact ⟨block, first⟩

/-- An item with elements is as high as its block. -/
theorem rows_eq_height (joined : concat zero rows = .ok out) (member : row ∈ rows) (inRow : m ∈ row)
    (full : m.isEmpty = false) : m.rows = height row := by
  obtain ⟨block, first⟩ := exists_joinRow joined member
  exact (Beside.of_joinRow first).high m inRow (by simp [full])

/-- A block with elements is as wide as the whole. -/
theorem width_eq_breadth (joined : concat zero rows = .ok out) (member : row ∈ rows) (full : 0 < depth row) :
    width row = breadth rows := by
  obtain ⟨k, found⟩ := List.mem_iff_getElem?.mp member
  obtain ⟨_, -, wide, -⟩ := entry_concat joined found ((Tiling.at_map found).mpr ⟨full, rfl⟩)
  exact wide.trans (cols_of_concat joined)

/-- A row with an element takes up its height. -/
theorem depth_eq_height (joined : concat zero rows = .ok out) (member : row ∈ rows) (inRow : m ∈ row)
    (full : m.isEmpty = false) : depth row = height row := by
  have high := rows_eq_height joined member inRow full
  refine if_neg fun flat => ?_
  have empty : m.isEmpty := isEmpty_iff.mpr (flat.imp (high.trans ·) (width_eq_zero.mp · m inRow))
  rw [full] at empty
  cases empty

/-- The place is in the matrix, and `x` stands there. -/
def Holds (out : Matrix α) (place : Nat × Nat) (x : α) : Prop :=
  place.1 < out.rows ∧ place.2 < out.cols ∧ out.entry place.1 place.2 = x

namespace Origin

variable {o p : Origin} {n : Matrix α} {r c : Nat}

/-- The elements go to the places that are taken up. -/
theorem of_iff (joined : concat zero rows = .ok out) (found : rows[o.block]? = some row)
    (foundItem : row[o.item]? = some m) :
    o.Of rows m ∧ o.place depth rows = (r, c) ↔
      Tiling.At (rows.map depth) o.block o.row r ∧ Tiling.At (row.map span) o.item o.col c := by
  have member := List.mem_of_getElem? found
  have inRow := List.mem_of_getElem? foundItem
  have left : rows.getD o.block [] = row := by simp [List.getD, found]
  rw [Tiling.at_map found, Tiling.at_map foundItem, place, left, Prod.mk.injEq]
  constructor
  · rintro ⟨inside, rfl, rfl⟩
    have full := inside.isEmpty_eq
    obtain ⟨_, _, _, hr, hc⟩ := inside
    rw [depth_eq_height joined member inRow full, ← rows_eq_height joined member inRow full]
    exact ⟨⟨hr, rfl⟩, lt_span.mpr ⟨full, hc⟩, rfl⟩
  · rintro ⟨⟨hr, rfl⟩, hc, rfl⟩
    obtain ⟨full, hc⟩ := lt_span.mp hc
    have high := rows_eq_height joined member inRow full
    exact ⟨⟨row, found, foundItem, high ▸ Nat.lt_of_lt_of_le hr (depth_le row), hc⟩, rfl, rfl⟩

/-- No element is lost. -/
theorem Of.holds (inside : o.Of rows m) (joined : concat zero rows = .ok out) :
    out.Holds (o.place depth rows) (m.entry o.row o.col) := by
  obtain ⟨row, found, foundItem, -⟩ := id inside
  obtain ⟨across, along⟩ := (of_iff joined found foundItem).mp ⟨inside, rfl⟩
  obtain ⟨block, first, wide, same⟩ := entry_concat joined found across
  have hr : (o.place depth rows).1 < out.rows := by
    rw [rows_of_concat joined]
    exact Nat.lt_of_lt_of_le across.lt_sum (List.sum_le_sum fun row _ => depth_le row)
  have hc : (o.place depth rows).2 < out.cols := wide ▸ Nat.lt_of_lt_of_le along.lt_sum (sum_span_le row)
  have high : o.row < height row := Nat.lt_of_lt_of_le ((Tiling.at_map found).mp across).1 (depth_le row)
  exact ⟨hr, hc, (same _ hc).trans (entry_joinRow first foundItem along high)⟩

/-- No two elements go to one place. -/
theorem Of.unique (inside : o.Of rows m) (other : p.Of rows n) (joined : concat zero rows = .ok out)
    (same : o.place depth rows = p.place depth rows) : o = p := by
  obtain ⟨row, found, foundItem, -⟩ := id inside
  obtain ⟨row', found', foundItem', -⟩ := id other
  obtain ⟨across, along⟩ := (of_iff joined found foundItem).mp ⟨inside, rfl⟩
  obtain ⟨across', along'⟩ := (of_iff joined found' foundItem').mp ⟨other, same.symm⟩
  obtain ⟨block, line⟩ := across.unique across'
  obtain rfl : row = row' := Option.some.inj (found.symm.trans (block ▸ found'))
  obtain ⟨item, column⟩ := along.unique along'
  obtain ⟨_, _, _, _⟩ := o
  obtain ⟨_, _, _, _⟩ := p
  exact Origin.mk.injEq .. ▸ ⟨block, item, line, column⟩

/-- A place that is taken up in both directions has an element. -/
theorem exists_of (joined : concat zero rows = .ok out) {k i : Nat} (found : rows[k]? = some row)
    (across : Tiling.At (rows.map depth) k i r) (hc : c < (row.map span).sum) :
    ∃ o m, Origin.Of o rows m ∧ o.place depth rows = (r, c) := by
  obtain ⟨l, j, along⟩ := Tiling.exists_at hc
  obtain ⟨m, foundItem⟩ := along.exists_item
  exact ⟨⟨k, l, i, j⟩, m, (of_iff joined found foundItem).mpr ⟨across, along⟩⟩

/-- Where no element goes, the whole is filled up. -/
theorem entry_of_forall_ne (joined : concat zero rows = .ok out) (hr : r < out.rows) (hc : c < out.cols)
    (free : ∀ o m, Origin.Of o rows m → o.place depth rows ≠ (r, c)) : out.entry r c = zero := by
  by_cases below : (rows.map depth).sum ≤ r
  · exact entry_concat_of_le joined below hr hc
  · obtain ⟨k, i, across⟩ := Tiling.exists_at (Nat.not_le.mp below)
    obtain ⟨row, found⟩ := across.exists_item
    obtain ⟨block, first, wide, same⟩ := entry_concat joined found across
    have high : i < height row := Nat.lt_of_lt_of_le ((Tiling.at_map found).mp across).1 (depth_le row)
    by_cases beyond : (row.map span).sum ≤ c
    · exact (same c hc).trans (entry_joinRow_of_le first high beyond (wide ▸ hc))
    · obtain ⟨o, m, inside, place⟩ := exists_of joined found across (Nat.not_le.mp beyond)
      exact absurd place (free o m inside)

end Origin

/-! Counting the elements. -/

/-- The items of a row have as many elements as the columns that they take up. -/
theorem sum_size_items (joined : concat zero rows = .ok out) (member : row ∈ rows) :
    (row.map size).sum = height row * (row.map span).sum := by
  rw [← List.sum_map_mul_left]
  refine congrArg List.sum (List.map_congr_left fun m inRow => ?_)
  cases full : m.isEmpty with
  | true => simp [span, full, of_decide_eq_true full]
  | false => simp [span, full, size, rows_eq_height joined member inRow full]

/-- The blocks have as many elements as the rows that they take up. -/
theorem sum_size_blocks (joined : concat zero rows = .ok out) :
    (rows.map fun row => height row * width row).sum = breadth rows * (rows.map depth).sum := by
  rw [← List.sum_map_mul_left]
  refine congrArg List.sum (List.map_congr_left fun row member => ?_)
  by_cases flat : height row = 0 ∨ width row = 0
  · rw [depth, if_pos flat, Nat.mul_zero, Nat.mul_eq_zero]
    exact flat
  · have deep : depth row = height row := if_neg flat
    rw [deep, ← width_eq_breadth joined member (by omega), Nat.mul_comm]

/-- Elements are as many as their items have, exactly if no item without elements takes up room. -/
theorem size_eq_iff_flush (joined : concat zero rows = .ok out) :
    out.size = (rows.flatten.map size).sum ↔ Flush rows := by
  have items : (rows.flatten.map size).sum = (rows.map fun row => height row * (row.map span).sum).sum := by
    rw [List.map_flatten, List.sum_flatten, List.map_map]
    exact congrArg List.sum (List.map_congr_left fun row member => sum_size_items joined member)
  have blocks := sum_size_blocks joined
  have whole : out.size = breadth rows * (rows.map height).sum := by
    rw [size, rows_of_concat joined, cols_of_concat joined, Nat.mul_comm]
  have inRow : ∀ row ∈ rows, height row * (row.map span).sum ≤ height row * width row :=
    fun row _ => Nat.mul_le_mul_left _ (sum_span_le row)
  have lower := List.sum_le_sum inRow
  have upper : breadth rows * (rows.map depth).sum ≤ breadth rows * (rows.map height).sum :=
    Nat.mul_le_mul_left _ (List.sum_le_sum fun row _ => depth_le row)
  -- room can be taken up in two ways: in a row, and in the whole
  have split : out.size = (rows.flatten.map size).sum ↔
      (rows.map fun row => height row * (row.map span).sum).sum =
        (rows.map fun row => height row * width row).sum ∧
      breadth rows * (rows.map depth).sum = breadth rows * (rows.map height).sum := by
    omega
  rw [split, sum_map_eq_iff inRow, flush_iff]
  simp only [mul_eq_mul_left_iff, or_comm]

variable {o : Origin} {r c : Nat}

theorem Flush.place_eq (flush : Flush rows) (joined : concat zero rows = .ok out) (inside : o.Of rows m) :
    o.place height rows = o.place depth rows := by
  have broad : breadth rows ≠ 0 := by
    rw [← cols_of_concat joined]
    exact Nat.ne_zero_of_lt (inside.holds joined).2.1
  have deep := (sum_map_eq_iff fun row _ => depth_le row).mp ((flush_iff.mp flush).2.resolve_left broad)
  have above : (rows.take o.block).map height = (rows.take o.block).map depth :=
    List.map_congr_left fun row member => (deep row (List.mem_of_mem_take member)).symm
  rw [Origin.place, above]
  rfl

theorem Flush.exists_of (flush : Flush rows) (joined : concat zero rows = .ok out) (hr : r < out.rows)
    (hc : c < out.cols) : ∃ o m, Origin.Of o rows m ∧ o.place depth rows = (r, c) := by
  obtain ⟨inRows, inWhole⟩ := flush_iff.mp flush
  have broad : breadth rows ≠ 0 := by
    rw [← cols_of_concat joined]
    exact Nat.ne_zero_of_lt hc
  rw [rows_of_concat joined, ← inWhole.resolve_left broad] at hr
  obtain ⟨k, i, across⟩ := Tiling.exists_at hr
  obtain ⟨row, found⟩ := across.exists_item
  have high : height row ≠ 0 := by
    have := ((Tiling.at_map found).mp across).1
    have := depth_le row
    omega
  obtain ⟨-, -, wide, -⟩ := entry_concat joined found across
  have full := (inRows row (List.mem_of_getElem? found)).resolve_left high
  exact Origin.exists_of joined found across (by omega)

/-- No element is lost when matrices are put together: each goes to a place of its own, and where none
goes the whole is filled up. Nothing is filled up, and the elements are as many as those of the items,
exactly if no item without elements takes up room. Then an element stands below the blocks above its own
and to the right of the items with elements to its left, and every place comes from one element. -/
theorem concat_origins (joined : concat zero rows = .ok out) :
    (∀ o m, Origin.Of o rows m → out.Holds (o.place depth rows) (m.entry o.row o.col)) ∧
    (∀ r c, r < out.rows → c < out.cols →
      (∀ o m, Origin.Of o rows m → o.place depth rows ≠ (r, c)) → out.entry r c = zero) ∧
    (out.size = (rows.flatten.map size).sum ↔ Flush rows) ∧
    (Flush rows →
      (∀ o m, Origin.Of o rows m → out.Holds (o.place height rows) (m.entry o.row o.col)) ∧
      ∀ r c, r < out.rows → c < out.cols →
        ∃! o : Origin, (∃ m, o.Of rows m) ∧ o.place height rows = (r, c)) := by
  refine ⟨fun o m inside => inside.holds joined, fun r c => Origin.entry_of_forall_ne joined,
    size_eq_iff_flush joined, fun flush => ⟨fun o m inside => ?_, fun r c hr hc => ?_⟩⟩
  · rw [flush.place_eq joined inside]
    exact inside.holds joined
  · obtain ⟨o, m, inside, place⟩ := flush.exists_of joined hr hc
    refine ⟨o, ⟨⟨m, inside⟩, (flush.place_eq joined inside).trans place⟩, ?_⟩
    rintro p ⟨⟨n, other⟩, placed⟩
    refine other.unique inside joined ?_
    rw [← flush.place_eq joined other, placed, place]

/-- Two blocks, with an item without columns in the first and a row without items between them. -/
def layered : List (List (Matrix Float)) :=
  [[fill 2 1 1.0, fill 2 0 0.0, fill 2 2 2.0], [], [fill 1 3 3.0]]

theorem concat_origins_layered :
    ∃ out, concat 0.0 layered = .ok out ∧ Flush layered ∧ out.size = 9 ∧
      out.Holds (1, 1) 2.0 ∧ ∃! o : Origin, (∃ m, o.Of layered m) ∧ o.place height layered = (2, 1) := by
  have joined : concat 0.0 layered = .ok ⟨3, 3, #[1.0, 2.0, 2.0, 1.0, 2.0, 2.0, 3.0, 3.0, 3.0], rfl⟩ := rfl
  have flush : Flush layered := by decide
  obtain ⟨-, -, size, places⟩ := concat_origins joined
  obtain ⟨holds, unique⟩ := places flush
  refine ⟨_, joined, flush, size.mpr flush, ?_, unique 2 1 (by decide) (by decide)⟩
  exact holds ⟨0, 2, 1, 0⟩ (fill 2 2 2.0) ⟨_, rfl, rfl, by decide, by decide⟩

/-- Columns without rows widen their row, and the element beside them is followed by two zeros. Rows without
columns lengthen the whole, and the element below them stands in the first row and not in the third. -/
theorem concat_widened :
    (∃ out, concat 0.0 [[fill 1 1 7.0, fill 0 2 0.0]] = .ok out ∧
      out.elements = #[7.0, 0.0, 0.0] ∧ ([[fill 1 1 7.0, fill 0 2 0.0]].flatten.map size).sum = 1) ∧
    ∃ out, concat 0.0 [[fill 2 0 0.0], [fill 1 1 7.0]] = .ok out ∧ out.elements = #[7.0, 0.0, 0.0] ∧
      (Origin.mk 1 0 0 0).place height [[fill 2 0 (0.0 : Float)], [fill 1 1 7.0]] = (2, 0) :=
  ⟨⟨_, rfl, rfl, rfl⟩, _, rfl, rfl, rfl⟩

end Matrix
end MatrixCode
