import MatrixCode.Proofs.UnitSteps

/-!
Open ranges. A range without an end that goes up stops below the length of its dimension, wherever it starts.
One that goes down runs to zero, and the length is not looked at: it starts where it is told to. So it stays
inside the dimension exactly when it starts there, or selects nothing.
-/

namespace MatrixCode

namespace Progression

variable {start step last : Int64} {length : Nat} {chosen : List Nat}

/-- The chosen indices are the members of the progression that are not past its end. -/
theorem mem_of_sequence (made : sequence start step last = .ok chosen) :
    step.toInt ≠ 0 ∧ ∀ i : Nat, i ∈ chosen ↔
      ∃ k : Nat, (i : Int) = start.toInt + k * step.toInt ∧ Within step.toInt last.toInt i := by
  rw [← Outcome.toOption_eq_some, sequence] at made
  by_cases zero : step = 0
  · simp [zero] at made
  have moves : step.toInt ≠ 0 := fun h => zero (Int64.toInt_inj.mp h)
  rw [if_neg zero, members_eq moves, toOption_indices, Option.ite_none_right_eq_some,
    Option.some.injEq] at made
  obtain ⟨nonneg, rfl⟩ := made
  refine ⟨moves, fun i => ?_⟩
  simp only [← getElem?_progression moves, ← List.mem_iff_getElem?, List.mem_map]
  constructor
  · rintro ⟨x, member, rfl⟩
    rwa [Int.toNat_of_nonneg (nonneg x member)]
  · exact fun member => ⟨i, member, Int.toNat_natCast i⟩

/-- Up to the length of the largest dimensions, the word before a length is one less. -/
theorem toInt_lengthWord_sub_one (fits : (length : Int) ≤ Int64.maxValue.toInt) :
    (lengthWord length - 1).toInt = length - 1 := by
  have most : Int64.maxValue.toInt = 9223372036854775807 := rfl
  rw [lengthWord, Int64.toInt_sub, Int64.toInt_ofNat_of_lt (by omega), Int64.toInt_one]
  exact Int.bmod_eq_of_le (by omega) (by omega)

/-- An open range stays below the length when it goes up, and when it starts there. -/
theorem sequenceTo_below_iff (fits : (length : Int) ≤ Int64.maxValue.toInt)
    (made : sequenceTo start step length = .ok chosen) :
    (∀ i ∈ chosen, i < length) ↔ 0 < step.toInt ∨ start.toInt < length := by
  rw [sequenceTo] at made
  split at made
  · next down =>
      obtain ⟨-, member⟩ := mem_of_sequence made
      constructor
      · intro below
        by_contra beyond
        have first : start.toInt.toNat ∈ chosen :=
          (member _).mpr ⟨0, by omega, .inr ⟨down, Int.natCast_nonneg _⟩⟩
        have := below _ first
        omega
      · intro inside i chosen
        obtain ⟨k, value, -⟩ := (member i).mp chosen
        have : k * step.toInt ≤ 0 := Int.mul_nonpos_of_nonneg_of_nonpos (Int.natCast_nonneg k) (by omega)
        omega
  · next notDown =>
      obtain ⟨moves, member⟩ := mem_of_sequence made
      refine iff_of_true (fun i chosen => ?_) (.inl (by omega))
      obtain ⟨k, -, within⟩ := (member i).mp chosen
      rw [toInt_lengthWord_sub_one fits] at within
      rcases within with ⟨-, here⟩ | ⟨down, -⟩ <;> omega

end Progression

section Extents

variable {length : Nat} {value : Handle → Outcome Int64}

theorem Part.sequenceTo_of_resolve {first step : Option Handle} {chunk : List Nat}
    (resolved : (toEnd first step).resolve length value = .ok chunk) :
    ∃ a s, valueOr value 0 first = .ok a ∧ valueOr value 1 step = .ok s ∧
      Progression.sequenceTo a s length = .ok chunk := by
  simp only [← Outcome.toOption_eq_some] at resolved ⊢
  simpa [resolve, Option.bind_eq_some_iff] using resolved

namespace Extent

/-- A listed extent is resolved part by part. -/
theorem chunks_of_resolve {parts : List Part} {selection : Selection}
    (resolved : (listed parts).resolve length value = .ok selection) :
    ∃ chunks : List (List Nat), selection = .listed chunks.flatten ∧
      List.Forall₂ (fun part chunk => part.resolve length value = .ok chunk) parts chunks := by
  cases made : parts.mapM (Part.resolve length value) with
  | error failure =>
      rw [resolve, made] at resolved
      cases resolved
  | ok chunks =>
      rw [resolve, made] at resolved
      cases resolved
      exact ⟨chunks, rfl, Outcome.forall₂_of_mapM made⟩

/-- In an extent that can be resolved, the indices that an open part contributes are below the length exactly
when the part goes up or starts below the length. -/
theorem resolve_open_below_iff (fits : (length : Int) ≤ Int64.maxValue.toInt) {parts : List Part}
    {selection : Selection} (resolved : (listed parts).resolve length value = .ok selection) :
    ∃ chunks : List (List Nat), selection = .listed chunks.flatten ∧
      List.Forall₂ (fun part chunk => part.resolve length value = .ok chunk ∧
        ∀ first step, part = .toEnd first step → ∃ a s,
          Part.valueOr value 0 first = .ok a ∧ Part.valueOr value 1 step = .ok s ∧
          Progression.sequenceTo a s length = .ok chunk ∧
          ((∀ i ∈ chunk, i < length) ↔ 0 < s.toInt ∨ a.toInt < length)) parts chunks := by
  obtain ⟨chunks, rfl, each⟩ := chunks_of_resolve resolved
  refine ⟨chunks, rfl, each.imp fun part chunk made => ⟨made, ?_⟩⟩
  rintro first step rfl
  obtain ⟨a, s, start, step, made⟩ := Part.sequenceTo_of_resolve made
  exact ⟨a, s, start, step, made, Progression.sequenceTo_below_iff fits made⟩

end Extent
end Extents

/-- The words one, two, minus three, four and five, and two ranges: from one by twos and then from four down
by threes, and from five down by threes. -/
def Table.openEnded : Table where
  entries := #[.integerLiteral 1, .integerLiteral 2, .integerLiteral (-3), .integerLiteral 4,
    .integerLiteral 5,
    .named "inside" (.sequence (.union [.toEnd (some ⟨0⟩) (some ⟨1⟩), .toEnd (some ⟨3⟩) (some ⟨2⟩)])),
    .named "beyond" (.sequence (.toEnd (some ⟨4⟩) (some ⟨2⟩)))]
  literals := []

/-- Along five indices, going up from one and going down from four stay inside. -/
theorem Extent.resolve_inside :
    let value := Store.empty.index Table.openEnded
    let inside := listed [.toEnd (some ⟨0⟩) (some ⟨1⟩), .toEnd (some ⟨3⟩) (some ⟨2⟩)]
    classify .openEnded ⟨5⟩ = .ok inside ∧ inside.resolve 5 value = .ok (.listed [1, 3, 4, 1]) ∧
    ∃ up down, Selection.listed [1, 3, 4, 1] = .listed [up, down].flatten ∧
      (∀ i ∈ up, i < 5) ∧ ∀ i ∈ down, i < 5 := by
  intro value inside
  have resolved : inside.resolve 5 value = .ok (.listed [1, 3, 4, 1]) :=
    Outcome.toOption_eq_some.mp (by decide +kernel)
  have two : value ⟨1⟩ = .ok 2 := Outcome.toOption_eq_some.mp (by decide +kernel)
  have four : value ⟨3⟩ = .ok 4 := Outcome.toOption_eq_some.mp (by decide +kernel)
  refine ⟨rfl, resolved, ?_⟩
  obtain ⟨_, all, _ | ⟨⟨-, goesUp⟩, _ | ⟨⟨-, goesDown⟩, _ | _⟩⟩⟩ :=
    resolve_open_below_iff (by decide) resolved
  obtain ⟨_, s, -, step, -, up⟩ := goesUp _ _ rfl
  obtain ⟨a, _, start, -, -, down⟩ := goesDown _ _ rfl
  obtain rfl := Except.ok.inj (two.symm.trans step)
  obtain rfl := Except.ok.inj (four.symm.trans start)
  exact ⟨_, _, all, up.mpr (.inl (by decide)), down.mpr (.inr (by decide))⟩

/-- Along four indices, going down from five starts outside. -/
theorem Extent.resolve_beyond :
    ∃ e, classify .openEnded ⟨6⟩ = .ok e ∧ e = listed [.toEnd (some ⟨4⟩) (some ⟨2⟩)] ∧
      e.resolve 4 (Store.empty.index .openEnded) = .ok (.listed [5, 2]) ∧
      Progression.sequenceTo 5 (-3) 4 = .ok [5, 2] ∧ ¬∀ i ∈ [5, 2], i < 4 := by
  refine ⟨_, rfl, rfl, Outcome.toOption_eq_some.mp ?_, Outcome.toOption_eq_some.mp ?_, by decide⟩
  · decide +kernel
  · decide +kernel

end MatrixCode
