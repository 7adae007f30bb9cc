import MatrixCode.Proofs.Entries

/-!
Parts of a matrix, given by lists of rows and columns or by a list of positions counted row by row. What is
written is read back, unless a place is listed twice, where the last one counts; what is not listed stays as it
was. All conditions are checked before the first write, so that a failure leaves the matrix alone.
-/

namespace MatrixCode

/-- Gives the value where the condition holds, and fails elsewhere. -/
structure Gives {β : Type} (o : Except Fault β) (p : Prop) (value : β) : Prop where
  ok : p → o = .ok value
  error : ¬p → ∃ fault, o = .error fault

/-- Leaves a new matrix where the condition holds; elsewhere fails and leaves the matrix as it was. -/
structure Overwrites {α : Type} (write : Overwriting α Unit) (target : Matrix α) (p : Prop)
    (after : Matrix α) : Prop where
  ok : p → write.run.run target = (.ok (), after)
  error : ¬p → ∃ fault, write.run.run target = (.error fault, target)

namespace Gives

variable {β γ : Type} {o : Except Fault β} {p q : Prop} {b : β}

theorem bind {f : β → Except Fault γ} {c : γ} (first : Gives o p b) (rest : Gives (f b) q c) :
    Gives (o >>= f) (p ∧ q) c where
  ok := fun ⟨hp, hq⟩ => by
    rw [first.ok hp]
    exact rest.ok hq
  error fails := by
    by_cases hp : p
    · rw [first.ok hp]
      exact rest.error fun hq => fails ⟨hp, hq⟩
    · obtain ⟨fault, failed⟩ := first.error hp
      exact ⟨fault, by rw [failed]; rfl⟩

theorem pure (b : β) : Gives (Pure.pure b) True b := ⟨fun _ => rfl, fun absurd => (absurd trivial).elim⟩

theorem of_iff (y : Gives o p b) (same : q ↔ p) : Gives o q b :=
  ⟨fun hq => y.ok (same.mp hq), fun hq => y.error fun hp => hq (same.mpr hp)⟩

theorem of_ok (y : Gives o p b) {c : β} (found : o = .ok c) : p ∧ c = b := by
  by_cases hp : p
  · exact ⟨hp, Except.ok.inj (found.symm.trans (y.ok hp))⟩
  · obtain ⟨fault, failed⟩ := y.error hp
    cases found.symm.trans failed

end Gives

namespace Overwrites

variable {α β : Type} {target after : Matrix α} {p q : Prop}

theorem get {f : Matrix α → Overwriting α Unit} (rest : Overwrites (f target) target p after) :
    Overwrites (MonadState.get >>= f) target p after := ⟨rest.ok, rest.error⟩

theorem set (target after : Matrix α) :
    Overwrites (MonadStateOf.set after : Overwriting α Unit) target True after :=
  ⟨fun _ => rfl, fun absurd => (absurd trivial).elim⟩

theorem check {o : Except Fault β} {b : β} {f : β → Overwriting α Unit} (first : Gives o p b)
    (rest : Overwrites (f b) target q after) :
    Overwrites ((liftM o : Overwriting α β) >>= f) target (p ∧ q) after where
  ok := fun ⟨hp, hq⟩ => by
    rw [first.ok hp]
    exact rest.ok hq
  error fails := by
    by_cases hp : p
    · rw [first.ok hp]
      exact rest.error fun hq => fails ⟨hp, hq⟩
    · obtain ⟨fault, failed⟩ := first.error hp
      exact ⟨fault, by rw [failed]; rfl⟩

theorem require {c : Prop} [Decidable c] {fault : Fault} {f : Unit → Overwriting α Unit}
    (rest : Overwrites (f ()) target q after) :
    Overwrites (if ¬c then throw fault >>= f else f ()) target (c ∧ q) after where
  ok := fun ⟨hc, hq⟩ => by
    rw [if_neg (not_not.mpr hc)]
    exact rest.ok hq
  error fails := by
    by_cases hc : c
    · rw [if_neg (not_not.mpr hc)]
      exact rest.error fun hq => fails ⟨hc, hq⟩
    · exact ⟨fault, by rw [if_pos hc]; rfl⟩

theorem of_iff {write : Overwriting α Unit} (w : Overwrites write target p after) (same : q ↔ p) :
    Overwrites write target q after :=
  ⟨fun hq => w.ok (same.mp hq), fun hq => w.error fun hp => hq (same.mpr hp)⟩

theorem result {write : Overwriting α Unit} (w : Overwrites write target p after) :
    Gives (write.result target) p after where
  ok hp := by rw [Overwriting.result, completed, w.ok hp]; rfl
  error hp := by
    obtain ⟨fault, failed⟩ := w.error hp
    exact ⟨fault, by rw [Overwriting.result, completed, failed]; rfl⟩

end Overwrites

namespace Matrix

variable {α : Type}

theorem gives_checkIndices (indices : List Nat) (length : Nat) :
    Gives (checkIndices indices length) (∀ i ∈ indices, i < length) () where
  ok below := by
    rw [checkIndices, List.find?_eq_none.mpr (by simpa using below)]
    rfl
  error outside := by
    obtain ⟨i, found⟩ : ∃ i, indices.find? (length ≤ ·) = some i := by
      rw [← Option.isSome_iff_exists, List.find?_isSome]
      simpa using outside
    exact ⟨_, by rw [checkIndices, found]; rfl⟩

/-- A value for each crossing of listed rows and columns, by their ranks. -/
def gridWrites (rows cols : List Nat) (value : Nat → Nat → α) : Writes α :=
  (crossing rows cols).map fun w => (w.1, value w.2.1 w.2.2)

/-- A value for each listed position, by its rank. -/
def flatWrites (m : Matrix α) (positions : List Nat) (value : Nat → α) : Writes α :=
  positions.zipIdx.map fun w => (m.position w.1, value w.2)

section Runs

variable (target source : Matrix α) (x : α) (rows cols positions : List Nat)

theorem overwrites_fillIndices :
    Overwrites (Overwriting.fillIndices x rows cols) target
      ((∀ r ∈ rows, r < target.rows) ∧ (∀ c ∈ cols, c < target.cols))
      (target.setAll (gridWrites rows cols fun _ _ => x)) := by
  refine .of_iff (.get (.check (gives_checkIndices ..) (.check (gives_checkIndices ..) (.set ..)))) ?_
  simp only [and_true]

theorem overwrites_fillFlat :
    Overwrites (Overwriting.fillFlat x positions) target (∀ p ∈ positions, p < target.size)
      (target.setAll (target.flatWrites positions fun _ => x)) := by
  have writes : positions.map (fun p => (target.position p, x)) = target.flatWrites positions fun _ => x := by
    conv_lhs => rw [← List.zipIdx_map_fst 0 positions, List.map_map]
    rfl
  rw [← writes]
  refine .of_iff (.get (.check (gives_checkIndices ..) (.set ..))) ?_
  simp only [and_true]

variable [Inhabited α]

theorem overwrites_insertIndices :
    Overwrites (Overwriting.insertIndices source rows cols) target
      ((∀ r ∈ rows, r < target.rows) ∧ (∀ c ∈ cols, c < target.cols) ∧
        source.shape = (rows.length, cols.length))
      (target.setAll (gridWrites rows cols source.entry)) := by
  refine .of_iff (.get (.check (gives_checkIndices ..) (.check (gives_checkIndices ..)
    (.require (.set ..))))) ?_
  simp only [and_true]

theorem overwrites_insertFlat :
    Overwrites (Overwriting.insertFlat source positions) target
      ((∀ p ∈ positions, p < target.size) ∧ source.size = positions.length)
      (target.setAll (target.flatWrites positions source.entryAt)) := by
  refine .of_iff (.get (.check (gives_checkIndices ..) (.require (.set ..)))) ?_
  simp only [and_true]

theorem gives_extractIndices :
    Gives (target.extractIndices rows cols)
      ((∀ r ∈ rows, r < target.rows) ∧ (∀ c ∈ cols, c < target.cols))
      (build rows.length cols.length fun i j => target.entry (rows.getD i 0) (cols.getD j 0)) := by
  have made : Gives (target.extractIndices rows cols)
      ((∀ r ∈ rows, r < target.rows) ∧ (∀ c ∈ cols, c < target.cols) ∧ True)
      (build rows.toArray.size cols.toArray.size fun i j =>
        target.entry (rows.toArray.getD i 0) (cols.toArray.getD j 0)) :=
    .bind (gives_checkIndices ..) (.bind (gives_checkIndices ..) (.pure _))
  simpa using made

theorem gives_extractFlat :
    Gives (target.extractFlat positions) (∀ p ∈ positions, p < target.size)
      (build 1 positions.length fun _ j => target.entryAt (positions.getD j 0)) := by
  have made : Gives (target.extractFlat positions) ((∀ p ∈ positions, p < target.size) ∧ True)
      (build 1 positions.toArray.size fun _ j => target.entryAt (positions.toArray.getD j 0)) :=
    .bind (gives_checkIndices ..) (.pure _)
  simpa using made

end Runs

end Matrix

/-- The last rank at which an index is listed. -/
def IsLast (indices : List Nat) (rank index : Nat) : Prop :=
  indices[rank]? = some index ∧ ∀ later, rank < later → indices[later]? ≠ some index

section Ranks

variable {indices rows cols : List Nat} {rank index i j r c : Nat}

theorem IsLast.split (last : IsLast indices rank index) :
    ∃ before after, indices = before ++ index :: after ∧ before.length = rank ∧ index ∉ after := by
  obtain ⟨found, later⟩ := last
  obtain ⟨small, rfl⟩ := List.getElem?_eq_some_iff.mp found
  refine ⟨indices.take rank, indices.drop (rank + 1), ?_, List.length_take_of_le small.le, fun mem => ?_⟩
  · rw [← List.drop_eq_getElem_cons small, List.take_append_drop]
  · obtain ⟨k, again⟩ := List.mem_iff_getElem?.mp mem
    rw [List.getElem?_drop] at again
    exact later (rank + 1 + k) (by omega) again

theorem isLast_of_nodup (nodup : indices.Nodup) (found : indices[rank]? = some index) :
    IsLast indices rank index := by
  obtain ⟨small, -⟩ := List.getElem?_eq_some_iff.mp found
  exact ⟨found, fun later behind again =>
    behind.ne ((List.getElem?_inj small nodup).mp (found.trans again.symm))⟩

theorem isLast_getD (nodup : indices.Nodup) (small : rank < indices.length) :
    IsLast indices rank (indices.getD rank 0) := isLast_of_nodup nodup (by simp [small])

theorem exists_isLast (listed : index ∈ indices) : ∃ rank, IsLast indices rank index := by
  induction indices with
  | nil => cases listed
  | cons first indices ih =>
      by_cases again : index ∈ indices
      · obtain ⟨rank, found, last⟩ := ih again
        refine ⟨rank + 1, found, fun later behind => ?_⟩
        cases later with
        | zero => omega
        | succ later => exact last later (Nat.lt_of_succ_lt_succ behind)
      · obtain rfl := (List.mem_cons.mp listed).resolve_right again
        refine ⟨0, rfl, fun later behind found => again ?_⟩
        cases later with
        | zero => omega
        | succ later => exact List.mem_of_getElem? found

namespace Matrix

theorem mem_crossing {w : (Nat × Nat) × (Nat × Nat)} (mem : w ∈ crossing rows cols) :
    w.1.1 ∈ rows ∧ w.1.2 ∈ cols := by
  obtain ⟨⟨r, i⟩, row, listed⟩ := List.mem_flatMap.mp mem
  obtain ⟨⟨c, j⟩, col, rfl⟩ := List.mem_map.mp listed
  exact ⟨(List.fst_mem_of_mem_zipIdx row : r ∈ rows), (List.fst_mem_of_mem_zipIdx col : c ∈ cols)⟩

/-- Behind the last ranks of a row and a column the two do not meet again. -/
theorem crossing_of_last (row : IsLast rows i r) (col : IsLast cols j c) :
    ∃ before after, crossing rows cols = before ++ ((r, c), (i, j)) :: after ∧
      ∀ w ∈ after, w.1 ≠ (r, c) := by
  obtain ⟨above, below, rfl, rfl, newRow⟩ := row.split
  obtain ⟨left, right, rfl, rfl, newCol⟩ := col.split
  simp only [crossing, List.zipIdx_append, List.zipIdx_cons, List.flatMap_append, List.flatMap_cons,
    List.map_append, List.map_cons, Nat.zero_add]
  refine ⟨_, _, by simp only [List.append_assoc, List.cons_append]; rw [← List.append_assoc], ?_⟩
  rintro w mem same
  rcases List.mem_append.mp mem with listed | listed
  · obtain ⟨x, again, rfl⟩ := List.mem_map.mp listed
    obtain ⟨-, rfl⟩ := Prod.mk.inj same
    exact newCol (List.fst_mem_of_mem_zipIdx again)
  · obtain ⟨x, again, crossed⟩ := List.mem_flatMap.mp listed
    have here : w.1.1 = x.1 := by
      rcases List.mem_append.mp crossed with left | right
      · obtain ⟨y, -, rfl⟩ := List.mem_map.mp left
        rfl
      · rcases List.mem_cons.mp right with rfl | right
        · rfl
        · obtain ⟨y, -, rfl⟩ := List.mem_map.mp right
          rfl
    obtain rfl : r = x.1 := by rw [← here, same]
    exact newRow (List.fst_mem_of_mem_zipIdx again)

end Matrix
end Ranks

namespace Matrix

variable {α : Type} {target source after : Matrix α} {x : α} {rows cols positions : List Nat}

theorem position_eq_iff (m : Matrix α) {p r c : Nat} (hc : c < m.cols) :
    m.position p = (r, c) ↔ p = r * m.cols + c := by
  have cols : Nat.max m.cols 1 = m.cols := Nat.max_eq_left (Nat.one_le_of_lt hc)
  rw [position, cols, Prod.mk.injEq]
  constructor
  · rintro ⟨rfl, rfl⟩
    exact (Nat.div_add_mod' p m.cols).symm
  · rintro rfl
    exact ⟨position_div hc, position_mod hc⟩

/-- A position that counts lies in a row. -/
theorem row_lt_of_position {m : Matrix α} {r c : Nat} (inside : r * m.cols + c < m.size) : r < m.rows :=
  Nat.lt_of_mul_lt_mul_right (Nat.lt_of_le_of_lt (Nat.le_add_right ..) inside)

variable [Inhabited α]

theorem entryAt_position (m : Matrix α) {i j : Nat} (hj : j < m.cols) :
    m.entryAt (i * m.cols + j) = m.entry i j := by
  rw [entryAt, (position_eq_iff m hj).mpr rfl]

/-- The elements row after row, in a single row. -/
def asRow (m : Matrix α) : Matrix α := ⟨1, m.size, m.elements, by rw [m.size_eq, size, Nat.one_mul]⟩

theorem entry_asRow (m : Matrix α) {k : Nat} (inside : k < m.size) : m.asRow.entry 0 k = m.entryAt k := by
  have here := getElem?_elements m.asRow Nat.one_pos inside
  obtain ⟨i, j, hi, hj, rfl⟩ := exists_position inside
  rw [Nat.zero_mul, Nat.zero_add] at here
  rw [entryAt_position m hj]
  exact Option.some.inj (here.symm.trans (getElem?_elements m hi hj))

section Grid

variable (value : Nat → Nat → α) {r c : Nat}

/-- Where a row or a column is listed more than once, its last rank counts. -/
theorem entry_gridWrites_of_last {i j : Nat} (row : IsLast rows i r) (col : IsLast cols j c)
    (hr : r < target.rows) (hc : c < target.cols) :
    (target.setAll (gridWrites rows cols value)).entry r c = value i j := by
  obtain ⟨before, after, split, apart⟩ := crossing_of_last row col
  rw [gridWrites, split, List.map_append, List.map_cons]
  refine entry_setAll_of_last target _ _ hr hc fun w mem => ?_
  obtain ⟨v, listed, rfl⟩ := List.mem_map.mp mem
  exact apart v listed

theorem entry_gridWrites_of_not_mem (unlisted : ¬(r ∈ rows ∧ c ∈ cols)) :
    (target.setAll (gridWrites rows cols value)).entry r c = target.entry r c := by
  refine entry_setAll_of_not_mem target fun w mem same => unlisted ?_
  obtain ⟨v, listed, rfl⟩ := List.mem_map.mp mem
  obtain ⟨rfl, rfl⟩ := Prod.mk.inj same
  exact mem_crossing listed

end Grid

section Flat

variable (value : Nat → α) {r c : Nat}

theorem entry_flatWrites_of_last {k : Nat} (listed : IsLast positions k (r * target.cols + c))
    (hr : r < target.rows) (hc : c < target.cols) :
    (target.setAll (target.flatWrites positions value)).entry r c = value k := by
  obtain ⟨before, after, rfl, rfl, new⟩ := listed.split
  simp only [flatWrites, List.zipIdx_append, List.zipIdx_cons, List.map_append, List.map_cons,
    (position_eq_iff target hc).mpr rfl, Nat.zero_add]
  refine entry_setAll_of_last target _ _ hr hc fun w mem same => new ?_
  obtain ⟨v, again, rfl⟩ := List.mem_map.mp mem
  rw [← (position_eq_iff target hc).mp same]
  exact List.fst_mem_of_mem_zipIdx again

theorem entry_flatWrites_of_not_mem (hc : c < target.cols) (unlisted : r * target.cols + c ∉ positions) :
    (target.setAll (target.flatWrites positions value)).entry r c = target.entry r c := by
  refine entry_setAll_of_not_mem target fun w mem same => unlisted ?_
  obtain ⟨v, listed, rfl⟩ := List.mem_map.mp mem
  rw [← (position_eq_iff target hc).mp same]
  exact List.fst_mem_of_mem_zipIdx listed

end Flat

theorem insertIndices_laws (written : target.insertIndices source rows cols = .ok after) :
    after.shape = target.shape ∧
    (∀ i j r c, IsLast rows i r → IsLast cols j c → after.entry r c = source.entry i j) ∧
    (∀ r c, ¬(r ∈ rows ∧ c ∈ cols) → after.entry r c = target.entry r c) ∧
    (rows.Nodup → cols.Nodup → after.extractIndices rows cols = .ok source) := by
  obtain ⟨⟨below, below', shape⟩, rfl⟩ := (overwrites_insertIndices ..).result.of_ok written
  obtain ⟨sameRows, sameCols⟩ := Prod.mk.inj (shape_setAll target (gridWrites rows cols source.entry))
  have last (i j r c : Nat) (row : IsLast rows i r) (col : IsLast cols j c) :=
    entry_gridWrites_of_last source.entry row col (below r (List.mem_of_getElem? row.1))
      (below' c (List.mem_of_getElem? col.1))
  refine ⟨shape_setAll .., last, fun r c => entry_gridWrites_of_not_mem _, fun nodup nodup' => ?_⟩
  rw [(gives_extractIndices ..).ok ⟨sameRows ▸ below, sameCols ▸ below'⟩]
  refine congrArg Except.ok (build_eq shape fun i j hi hj => ?_)
  exact last i j _ _ (isLast_getD nodup hi) (isLast_getD nodup' hj)

theorem insertFlat_laws (written : target.insertFlat source positions = .ok after) :
    after.shape = target.shape ∧
    (∀ i j r c, j < source.cols → c < target.cols →
      IsLast positions (i * source.cols + j) (r * target.cols + c) →
      after.entry r c = source.entry i j) ∧
    (∀ r c, c < target.cols → r * target.cols + c ∉ positions → after.entry r c = target.entry r c) ∧
    (positions.Nodup → after.extractFlat positions = .ok source.asRow) := by
  obtain ⟨⟨below, size⟩, rfl⟩ := (overwrites_insertFlat ..).result.of_ok written
  have same := shape_setAll target (target.flatWrites positions source.entryAt)
  obtain ⟨sameRows, sameCols⟩ := Prod.mk.inj same
  have last (k r c : Nat) (hc : c < target.cols) (listed : IsLast positions k (r * target.cols + c)) :=
    entry_flatWrites_of_last source.entryAt listed
      (row_lt_of_position (below _ (List.mem_of_getElem? listed.1))) hc
  refine ⟨same, fun i j r c hj hc listed => ?_, fun r c => entry_flatWrites_of_not_mem _,
    fun nodup => ?_⟩
  · rw [← entryAt_position source hj]
    exact last _ r c hc listed
  · have sameSize : (target.setAll (target.flatWrites positions source.entryAt)).size = target.size := by
      rw [Matrix.size, sameRows, sameCols, Matrix.size]
    rw [(gives_extractFlat ..).ok (sameSize ▸ below)]
    refine congrArg Except.ok (build_eq (by rw [← size]; rfl) fun i k hi hk => ?_)
    have listed := isLast_getD nodup hk
    obtain ⟨r, c, hr, hc, split⟩ := exists_position (below _ (List.mem_of_getElem? listed.1))
    obtain rfl : i = 0 := by omega
    rw [entry_asRow source (size ▸ hk), split, ← sameCols,
      entryAt_position _ (sameCols ▸ hc)]
    exact last k r c hc (split ▸ listed)

theorem fillIndices_laws (written : target.fillIndices x rows cols = .ok after) :
    after.shape = target.shape ∧
    ∀ r c, after.entry r c = if r ∈ rows ∧ c ∈ cols then x else target.entry r c := by
  obtain ⟨⟨below, below'⟩, rfl⟩ := (overwrites_fillIndices ..).result.of_ok written
  refine ⟨shape_setAll .., fun r c => ?_⟩
  split
  · next listed =>
      obtain ⟨i, row⟩ := exists_isLast listed.1
      obtain ⟨j, col⟩ := exists_isLast listed.2
      exact entry_gridWrites_of_last _ row col (below r listed.1) (below' c listed.2)
  · next unlisted => exact entry_gridWrites_of_not_mem _ unlisted

theorem fillFlat_laws (written : target.fillFlat x positions = .ok after) :
    after.shape = target.shape ∧
    ∀ r c, c < target.cols →
      after.entry r c = if r * target.cols + c ∈ positions then x else target.entry r c := by
  obtain ⟨below, rfl⟩ := (overwrites_fillFlat ..).result.of_ok written
  refine ⟨shape_setAll .., fun r c hc => ?_⟩
  split
  · next listed =>
      obtain ⟨k, last⟩ := exists_isLast listed
      exact entry_flatWrites_of_last _ last (row_lt_of_position (below _ listed)) hc
  · next unlisted => exact entry_flatWrites_of_not_mem _ hc unlisted

theorem indexBelow_of_lt {i : Int64} {length : Nat} (nonneg : 0 ≤ i.toInt) (below : i.toInt < length) :
    Progression.indexBelow i length = .ok i.toInt.toNat := if_pos ⟨nonneg, by omega⟩

/-- Addressing by position and by row and column agree. -/
theorem element_position (m : Matrix α) {row col position : Int64} (hr : 0 ≤ row.toInt)
    (hr' : row.toInt < m.rows) (hc : 0 ≤ col.toInt) (hc' : col.toInt < m.cols)
    (counted : position.toInt = row.toInt * m.cols + col.toInt) :
    m.element position = m.element₂ row col ∧
      m.element₂ row col = .ok (m.entry row.toInt.toNat col.toInt.toNat) := by
  obtain ⟨r, row_eq⟩ := Int.eq_ofNat_of_zero_le hr
  obtain ⟨c, col_eq⟩ := Int.eq_ofNat_of_zero_le hc
  have small : c < m.cols := by omega
  have place : position.toInt = (r * m.cols + c : Nat) := by rw [counted, row_eq, col_eq]; push_cast; rfl
  have inside : r * m.cols + c < m.size := position_lt (by omega) small
  have pair : m.element₂ row col = .ok (m.entry r c) := by
    rw [element₂, indexBelow_of_lt hr hr', indexBelow_of_lt hc hc', row_eq, col_eq]
    rfl
  refine ⟨?_, by rw [pair, row_eq, col_eq]; rfl⟩
  rw [pair, element, indexBelow_of_lt (by omega) (by omega), place]
  exact congrArg Except.ok (entryAt_position m small)

/-- What is written to a part of a matrix is found there, and all else stays: without repetition the part reads
as it was written, among repeated places the last counts, and elements have the same place whether counted or
addressed by row and column. -/
theorem submatrix_laws (target source : Matrix α) (x : α) :
    (∀ rows cols after, target.insertIndices source rows cols = .ok after →
      after.shape = target.shape ∧
      (∀ i j r c, IsLast rows i r → IsLast cols j c → after.entry r c = source.entry i j) ∧
      (∀ r c, ¬(r ∈ rows ∧ c ∈ cols) → after.entry r c = target.entry r c) ∧
      (rows.Nodup → cols.Nodup → after.extractIndices rows cols = .ok source)) ∧
    (∀ positions after, target.insertFlat source positions = .ok after →
      after.shape = target.shape ∧
      (∀ i j r c, j < source.cols → c < target.cols →
        IsLast positions (i * source.cols + j) (r * target.cols + c) →
        after.entry r c = source.entry i j) ∧
      (∀ r c, c < target.cols → r * target.cols + c ∉ positions → after.entry r c = target.entry r c) ∧
      (positions.Nodup → after.extractFlat positions = .ok source.asRow)) ∧
    (∀ rows cols after, target.fillIndices x rows cols = .ok after →
      after.shape = target.shape ∧
      ∀ r c, after.entry r c = if r ∈ rows ∧ c ∈ cols then x else target.entry r c) ∧
    (∀ positions after, target.fillFlat x positions = .ok after →
      after.shape = target.shape ∧
      ∀ r c, c < target.cols →
        after.entry r c = if r * target.cols + c ∈ positions then x else target.entry r c) ∧
    (∀ row col position : Int64, 0 ≤ row.toInt → row.toInt < target.rows → 0 ≤ col.toInt →
      col.toInt < target.cols → position.toInt = row.toInt * target.cols + col.toInt →
      target.element position = target.element₂ row col ∧
        target.element₂ row col = .ok (target.entry row.toInt.toNat col.toInt.toNat)) :=
  ⟨fun _ _ _ => insertIndices_laws, fun _ _ => insertFlat_laws, fun _ _ _ => fillIndices_laws,
    fun _ _ => fillFlat_laws, fun _ _ _ => element_position target⟩

/-- Two rows and two columns in another order are read back as they were written, and the middle of the lower
row, listed twice, holds what came last. -/
theorem submatrix_laws_repeated :
    let target : Matrix Nat := ⟨2, 3, #[0, 1, 2, 3, 4, 5], rfl⟩
    let corner : Matrix Nat := ⟨2, 2, #[7, 8, 9, 6], rfl⟩
    let row : Matrix Nat := ⟨1, 3, #[7, 8, 9], rfl⟩
    ∃ written repeated, target.insertIndices corner [1, 0] [2, 0] = .ok written ∧
      written.extractIndices [1, 0] [2, 0] = .ok corner ∧
      target.insertFlat row [4, 0, 4] = .ok repeated ∧ repeated.entry 1 1 = 9 ∧
      repeated.entry 1 2 = 5 ∧ target.element 4 = target.element₂ 1 1 := by
  intro target corner row
  obtain ⟨grid, -⟩ := submatrix_laws target corner 0
  obtain ⟨-, flat, -, -, elements⟩ := submatrix_laws target row 0
  obtain ⟨-, -, -, readBack⟩ := grid [1, 0] [2, 0] _ rfl
  obtain ⟨-, last, unlisted, -⟩ := flat [4, 0, 4] _ rfl
  have twice : IsLast [4, 0, 4] 2 4 := by
    refine ⟨rfl, fun later behind => ?_⟩
    rw [List.getElem?_eq_none behind]
    simp
  exact ⟨_, _, rfl, readBack (by decide) (by decide), rfl,
    last 0 2 1 1 (by decide) (by decide) twice, unlisted 1 2 (by decide) (by decide),
    (elements 1 1 4 (by decide) (by decide) (by decide) (by decide) (by decide)).1⟩

end Matrix
end MatrixCode
