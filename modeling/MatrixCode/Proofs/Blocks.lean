import MatrixCode.Proofs.Submatrices

/-!
Blocks as lists of rows and columns. A block checks only its last row and column, and none at all where its
bounds are reversed; a list of indices checks each of them. The two agree for all bounds: they read and write
the same elements, and they refuse the same blocks, before anything has been written.
-/

namespace MatrixCode

/-- Both give the same, or both fail. -/
def Agree {β : Type} (o o' : Except Fault β) : Prop :=
  (∃ b, o = .ok b ∧ o' = .ok b) ∨ (∃ fault fault', o = .error fault ∧ o' = .error fault')

/-- Both leave the same matrix, or both fail and leave the matrix as it was. -/
def Overwriting.Agree {α : Type} (write write' : Overwriting α Unit) (target : Matrix α) : Prop :=
  (∃ after, write.run.run target = (.ok (), after) ∧ write'.run.run target = (.ok (), after)) ∨
  (∃ fault fault', write.run.run target = (.error fault, target) ∧
    write'.run.run target = (.error fault', target))

theorem Gives.agree {β : Type} {o o' : Except Fault β} {p : Prop} {b : β} (y : Gives o p b)
    (y' : Gives o' p b) : Agree o o' := by
  by_cases hp : p
  · exact .inl ⟨b, y.ok hp, y'.ok hp⟩
  · obtain ⟨fault, failed⟩ := y.error hp
    obtain ⟨fault', failed'⟩ := y'.error hp
    exact .inr ⟨fault, fault', failed, failed'⟩

theorem Overwrites.agree {α : Type} {write write' : Overwriting α Unit} {target after : Matrix α} {p : Prop}
    (w : Overwrites write target p after) (w' : Overwrites write' target p after) :
    write.Agree write' target := by
  by_cases hp : p
  · exact .inl ⟨after, w.ok hp, w'.ok hp⟩
  · obtain ⟨fault, failed⟩ := w.error hp
    obtain ⟨fault', failed'⟩ := w'.error hp
    exact .inr ⟨fault, fault', failed, failed'⟩

theorem Overwrites.of_eq {α : Type} {write : Overwriting α Unit} {target after after' : Matrix α} {p : Prop}
    (w : Overwrites write target p after) (same : p → after = after') : Overwrites write target p after' :=
  ⟨fun hp => same hp ▸ w.ok hp, w.error⟩

namespace Matrix

variable {α : Type} {start stop length i : Nat}

/-- Where a block begins in a dimension; nothing begins at zero. -/
def offset (start stop : Nat) : Nat := if start < stop then start else 0

theorem gives_interval (start stop length : Nat) :
    Gives (interval start stop length) (start < stop → stop ≤ length)
      (offset start stop, stop - start) := by
  unfold interval offset
  by_cases some : start < stop
  · rw [if_neg (Nat.not_le.mpr some), if_pos some]
    by_cases inside : stop ≤ length
    · rw [if_neg (Nat.not_lt.mpr inside)]
      exact .of_iff (.pure _) (by simp [inside])
    · rw [if_pos (Nat.not_le.mp inside)]
      exact ⟨fun fits => absurd (fits some) inside, fun _ => ⟨_, rfl⟩⟩
  · rw [if_pos (Nat.not_lt.mp some), if_neg some, Nat.sub_eq_zero_of_le (Nat.not_lt.mp some)]
    exact .of_iff (.pure _) (by simp [some])

/-- The indices of a block are below the length when its last one is. -/
theorem below_iff_fits :
    (∀ i ∈ List.range' start (stop - start), i < length) ↔ (start < stop → stop ≤ length) := by
  constructor
  · intro below some
    have last := below (stop - 1) (List.mem_range'_1.mpr (by omega))
    omega
  · intro fits i mem
    have := List.mem_range'_1.mp mem
    have := fits (by omega)
    omega

theorem mem_block_iff :
    i ∈ List.range' start (stop - start) ↔
      offset start stop ≤ i ∧ i < offset start stop + (stop - start) := by
  rw [List.mem_range'_1, offset]
  split <;> omega

theorem isLast_block (mem : i ∈ List.range' start (stop - start)) :
    IsLast (List.range' start (stop - start)) (i - offset start stop) i := by
  have inside := List.mem_range'_1.mp mem
  refine isLast_of_nodup List.nodup_range' ?_
  rw [offset, if_pos (by omega), List.getElem?_range' (by omega)]
  simp only [Nat.one_mul, Option.some.injEq]
  omega

theorem getD_block (small : i < stop - start) :
    (List.range' start (stop - start)).getD i 0 = offset start stop + i := by
  simp [offset, small, show start < stop by omega]

section Kernels

variable [Inhabited α] (a target source : Matrix α) (x : α) (r₀ r₁ c₀ c₁ : Nat)

/-- To paste a block is to write its entries to the crossings of its rows and columns. -/
theorem paste_eq_setAll {block : Matrix α} {value : Nat → Nat → α}
    (shape : block.shape = (r₁ - r₀, c₁ - c₀))
    (entries : ∀ i j, i < block.rows → j < block.cols → block.entry i j = value i j) :
    target.paste (offset r₀ r₁) (offset c₀ c₁) block =
      target.setAll (gridWrites (List.range' r₀ (r₁ - r₀)) (List.range' c₀ (c₁ - c₀)) value) := by
  obtain ⟨rows, cols⟩ := Prod.mk.inj shape
  refine ext_entry (shape_setAll target _).symm fun i j (hi : i < target.rows) (hj : j < target.cols) => ?_
  rw [entry_paste target _ _ block hi hj, rows, cols]
  split
  · next inside =>
      have row : i ∈ List.range' r₀ (r₁ - r₀) := mem_block_iff.mpr ⟨inside.1, inside.2.1⟩
      have col : j ∈ List.range' c₀ (c₁ - c₀) := mem_block_iff.mpr inside.2.2
      rw [entry_gridWrites_of_last value (isLast_block row) (isLast_block col) hi hj]
      exact entries _ _ (by omega) (by omega)
  · next outside =>
      refine (entry_gridWrites_of_not_mem value fun listed => outside ?_).symm
      exact ⟨(mem_block_iff.mp listed.1).1, (mem_block_iff.mp listed.1).2, mem_block_iff.mp listed.2⟩

theorem gives_extractBlock :
    Gives (a.extractBlock r₀ r₁ c₀ c₁) ((r₀ < r₁ → r₁ ≤ a.rows) ∧ (c₀ < c₁ → c₁ ≤ a.cols))
      (build (r₁ - r₀) (c₁ - c₀) fun i j => a.entry (offset r₀ r₁ + i) (offset c₀ c₁ + j)) := by
  refine .of_iff (.bind (gives_interval ..) (.bind (gives_interval ..) (.pure _))) ?_
  simp only [and_true]

theorem overwrites_insertBlock :
    Overwrites (Overwriting.insertBlock source r₀ r₁ c₀ c₁) target
      ((r₀ < r₁ → r₁ ≤ target.rows) ∧ (c₀ < c₁ → c₁ ≤ target.cols) ∧
        source.shape = (r₁ - r₀, c₁ - c₀))
      (target.paste (offset r₀ r₁) (offset c₀ c₁) source) := by
  refine .of_iff (.get (.check (gives_interval ..) (.check (gives_interval ..)
    (.require (.set ..))))) ?_
  simp only [and_true]

theorem overwrites_fillBlock :
    Overwrites (Overwriting.fillBlock x r₀ r₁ c₀ c₁) target
      ((r₀ < r₁ → r₁ ≤ target.rows) ∧ (c₀ < c₁ → c₁ ≤ target.cols))
      (target.paste (offset r₀ r₁) (offset c₀ c₁) (fill (r₁ - r₀) (c₁ - c₀) x)) := by
  refine .of_iff (.get (.check (gives_interval ..) (.check (gives_interval ..) (.set ..)))) ?_
  simp only [and_true]

theorem gives_extractIndices_block :
    Gives (a.extractIndices (List.range' r₀ (r₁ - r₀)) (List.range' c₀ (c₁ - c₀)))
      ((r₀ < r₁ → r₁ ≤ a.rows) ∧ (c₀ < c₁ → c₁ ≤ a.cols))
      (build (r₁ - r₀) (c₁ - c₀) fun i j => a.entry (offset r₀ r₁ + i) (offset c₀ c₁ + j)) := by
  have same : (build (r₁ - r₀) (c₁ - c₀) fun i j =>
      a.entry ((List.range' r₀ (r₁ - r₀)).getD i 0) ((List.range' c₀ (c₁ - c₀)).getD j 0)) =
      build (r₁ - r₀) (c₁ - c₀) fun i j => a.entry (offset r₀ r₁ + i) (offset c₀ c₁ + j) :=
    build_eq rfl fun i j hi hj => by rw [entry_build _ hi hj, getD_block hi, getD_block hj]
  have listed := gives_extractIndices a (List.range' r₀ (r₁ - r₀)) (List.range' c₀ (c₁ - c₀))
  rw [List.length_range', List.length_range', same] at listed
  exact listed.of_iff (and_congr below_iff_fits.symm below_iff_fits.symm)

end Kernels

/-- Blocks and lists of their rows and columns read the same and leave the same, or both are refused and the
matrix stays as it was; also where bounds are reversed or too large, and where nothing is selected. -/
theorem block_agrees [Inhabited α] (a target source : Matrix α) (x : α) (r₀ r₁ c₀ c₁ : Nat) :
    let rows := List.range' r₀ (r₁ - r₀)
    let cols := List.range' c₀ (c₁ - c₀)
    Agree (a.extractBlock r₀ r₁ c₀ c₁) (a.extractIndices rows cols) ∧
    (Overwriting.insertBlock source r₀ r₁ c₀ c₁).Agree (.insertIndices source rows cols) target ∧
    (Overwriting.fillBlock x r₀ r₁ c₀ c₁).Agree (.fillIndices x rows cols) target := by
  intro rows cols
  refine ⟨(gives_extractBlock ..).agree (gives_extractIndices_block ..), ?_, ?_⟩
  · refine (overwrites_insertBlock ..).agree (Overwrites.of_eq (.of_iff (overwrites_insertIndices ..) ?_) ?_)
    · rw [below_iff_fits, below_iff_fits, List.length_range', List.length_range']
    · intro ⟨_, _, shape⟩
      exact (paste_eq_setAll target _ _ _ _ shape fun _ _ _ _ => rfl).symm
  · refine (overwrites_fillBlock ..).agree (Overwrites.of_eq (.of_iff (overwrites_fillIndices ..) ?_) ?_)
    · rw [below_iff_fits, below_iff_fits]
    · intro _
      exact (paste_eq_setAll target _ _ _ _ rfl fun _ _ hi hj => entry_build _ hi hj).symm

end Matrix
end MatrixCode
