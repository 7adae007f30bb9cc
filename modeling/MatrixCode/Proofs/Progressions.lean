import Mathlib.Data.List.Basic
import Mathlib.Tactic.Linarith
import Mathlib.Tactic.Ring
import MatrixCode.Matrix.Progression

/-!
Arithmetic progressions of indices. The members that are not past the end are listed over the integers; the
enumeration goes from word to word and has to end by itself, also next to the first and the last word. Since
the end is a word, no member is left out when the next one is not.
-/

namespace MatrixCode

theorem Word.add?_eq_none {a b : Int64} (h : add? a b = none) :
    a.toInt + b.toInt < Int64.minValue.toInt ∨ Int64.maxValue.toInt < a.toInt + b.toInt := by
  rw [add?, ofInt?, ite_eq_right_iff] at h
  by_contra inside
  cases h (by omega)

namespace Progression

/-- Not past the end, in the direction of the step. -/
def Within (step last x : Int) : Prop := (0 < step ∧ x ≤ last) ∨ (step < 0 ∧ last ≤ x)

/-- The number of members of `start, start + step, …` that are not past `last`. -/
def count (start step last : Int) : Nat :=
  if 0 < step then ((last - start) / step + 1).toNat else ((start - last) / -step + 1).toNat

/-- The members that are not past `last`. -/
def progression (start step last : Int) : List Int :=
  (List.range (count start step last)).map fun k : Nat => start + k * step

section Integers

variable {start step last : Int}

theorem lt_count_iff (moves : step ≠ 0) (k : Nat) :
    k < count start step last ↔ Within step last (start + k * step) := by
  unfold count Within
  by_cases up : 0 < step
  · have bound : (k : Int) ≤ (last - start) / step ↔ k * step ≤ last - start :=
      Int.le_ediv_iff_mul_le up
    rw [if_pos up]
    constructor
    · intro small
      exact .inl ⟨up, by linarith [bound.mp (by omega)]⟩
    · rintro (⟨-, here⟩ | ⟨down, -⟩)
      · have := bound.mpr (by linarith)
        omega
      · omega
  · have down : 0 < -step := by omega
    have bound : (k : Int) ≤ (start - last) / -step ↔ k * -step ≤ start - last :=
      Int.le_ediv_iff_mul_le down
    rw [if_neg up]
    constructor
    · intro small
      exact .inr ⟨by omega, by linarith [bound.mp (by omega)]⟩
    · rintro (⟨up', -⟩ | ⟨-, here⟩)
      · exact absurd up' up
      · have := bound.mpr (by linarith)
        omega

theorem getElem?_progression (moves : step ≠ 0) (k : Nat) (x : Int) :
    (progression start step last)[k]? = some x ↔ x = start + k * step ∧ Within step last x := by
  rw [progression, List.getElem?_map, Option.map_eq_some_iff]
  constructor
  · rintro ⟨l, found, rfl⟩
    obtain ⟨small, rfl⟩ := List.getElem?_eq_some_iff.mp found
    rw [List.getElem_range]
    exact ⟨rfl, (lt_count_iff moves k).mp (by simpa using small)⟩
  · rintro ⟨rfl, within⟩
    exact ⟨k, by rw [List.getElem?_range ((lt_count_iff moves k).mpr within)], rfl⟩

/-- Its members determine a progression. -/
theorem eq_progression (moves : step ≠ 0) {members : List Int}
    (listed : ∀ (k : Nat) x, members[k]? = some x ↔ x = start + k * step ∧ Within step last x) :
    members = progression start step last :=
  List.ext_getElem? fun k => Option.ext fun x => by rw [listed, getElem?_progression moves]

theorem progression_of_past (moves : step ≠ 0) (past : ¬Within step last start) :
    progression start step last = [] := by
  have none : ¬0 < count start step last := (lt_count_iff moves 0).not.mpr (by simpa using past)
  rw [progression, Nat.le_zero.mp (Nat.not_lt.mp none)]
  rfl

theorem progression_of_within (moves : step ≠ 0) (within : Within step last start) :
    progression start step last = start :: progression (start + step) step last := by
  refine (eq_progression moves fun k x => ?_).symm
  cases k with
  | zero =>
      have first : start = x → Within step last x := fun same => same ▸ within
      simpa [eq_comm] using first
  | succ k =>
      rw [List.getElem?_cons_succ, getElem?_progression moves]
      have shifted : start + step + k * step = start + (k + 1 : Nat) * step := by
        push_cast
        ring
      rw [shifted]

end Integers

/-- Members as indices: the first that is negative is refused. -/
def indices (members : List Int) : Except Fault (List Nat) :=
  match members.find? (· < 0) with
  | some x => throw (.indexOutOfBounds (Int64.ofInt x) unbounded)
  | none => return members.map Int.toNat

theorem indices_cons_of_nonneg {x : Int} (nonneg : 0 ≤ x) (members : List Int) :
    indices (x :: members) = do return x.toNat :: (← indices members) := by
  unfold indices
  rw [List.find?_cons_of_neg (by simpa using nonneg)]
  cases members.find? (· < 0) <;> rfl

theorem indices_cons_of_neg {i : Int64} (negative : i.toInt < 0) (members : List Int) :
    indices (i.toInt :: members) = .error (.indexOutOfBounds i unbounded) := by
  unfold indices
  rw [List.find?_cons_of_pos (by simpa using negative)]
  simp only [Int64.ofInt_toInt]
  rfl

theorem indexBelow_unbounded (i : Int64) :
    indexBelow i unbounded =
      if 0 ≤ i.toInt then .ok i.toInt.toNat else .error (.indexOutOfBounds i unbounded) := by
  have most : i.toInt ≤ 9223372036854775807 := i.toInt_le
  have small : i.toInt.toNat < unbounded := by
    rw [show unbounded = 18446744073709551615 from rfl]
    omega
  simp only [indexBelow, small, and_true]
  rfl

section Words

variable {step last i : Int64}

theorem within_iff :
    (0 < step ∧ i ≤ last) ∨ (step < 0 ∧ last ≤ i) ↔ Within step.toInt last.toInt i.toInt := by
  simp only [Within, Int64.lt_iff_toInt_lt, Int64.le_iff_toInt_le, Int64.toInt_zero]

/-- The end is a word, so a member that is no word is past it. -/
theorem past_of_add?_eq_none (none : Word.add? i step = .none) :
    ¬Within step.toInt last.toInt (i.toInt + step.toInt) := by
  have outside := Word.add?_eq_none none
  have := i.minValue_le_toInt
  have := i.toInt_le
  have := last.minValue_le_toInt
  have := last.toInt_le
  rintro (⟨up, here⟩ | ⟨down, here⟩) <;> omega

theorem members_of_within (within : Within step.toInt last.toInt i.toInt) :
    members step last i = do
      let first ← indexBelow i unbounded
      match Word.add? i step with
      | some j => return first :: (← members step last j)
      | none => return [first] := by
  rw [members, if_pos (within_iff.mpr within)]
  refine bind_congr fun first => ?_
  split <;> simp_all

theorem members_of_past (past : ¬Within step.toInt last.toInt i.toInt) : members step last i = .ok [] := by
  rw [members, if_neg (within_iff.not.mpr past)]
  rfl

/-- Going from word to word lists the members over the integers. -/
theorem members_eq (moves : step.toInt ≠ 0) (i : Int64) :
    members step last i = indices (progression i.toInt step.toInt last.toInt) := by
  induction i using members.induct step last with
  | case1 i within ih =>
      rw [within_iff] at within
      rw [members_of_within within, progression_of_within moves within, indexBelow_unbounded]
      by_cases nonneg : 0 ≤ i.toInt
      · rw [if_pos nonneg, indices_cons_of_nonneg nonneg]
        cases next : Word.add? i step with
        | some j =>
            rw [← Word.toInt_of_add? next, ← ih j next]
            rfl
        | none =>
            rw [progression_of_past moves (past_of_add?_eq_none next)]
            rfl
      · rw [if_neg nonneg, indices_cons_of_neg (Int.not_le.mp nonneg)]
        rfl
  | case2 i past =>
      rw [within_iff] at past
      rw [members_of_past past, progression_of_past moves past]
      rfl

end Words

/-- The runs of the enumeration from a member on, each with its number of rounds and its result: the members
that are within the end are made indices one by one, as long as there is a next word. -/
inductive Runs (step last : Int64) : Int64 → Nat → Except Fault (List Nat) → Prop where
  | past {i : Int64} (past : ¬Within step.toInt last.toInt i.toInt) : Runs step last i 0 (.ok [])
  | refused {i : Int64} {fault : Fault} (within : Within step.toInt last.toInt i.toInt)
      (refused : indexBelow i unbounded = .error fault) : Runs step last i 1 (.error fault)
  | lastWord {i : Int64} {first : Nat} (within : Within step.toInt last.toInt i.toInt)
      (found : indexBelow i unbounded = .ok first) (none : Word.add? i step = none) :
      Runs step last i 1 (.ok [first])
  | next {i j : Int64} {first rounds : Nat} {rest : Except Fault (List Nat)}
      (within : Within step.toInt last.toInt i.toInt) (found : indexBelow i unbounded = .ok first)
      (next : Word.add? i step = some j) (runs : Runs step last j rounds rest) :
      Runs step last i (rounds + 1) (do return first :: (← rest))

/-- The enumeration stops by itself, with at most one round for each member. -/
theorem runs_members {step last : Int64} (moves : step.toInt ≠ 0) (i : Int64) :
    ∃ rounds ≤ (progression i.toInt step.toInt last.toInt).length,
      Runs step last i rounds (members step last i) := by
  induction i using members.induct step last with
  | case1 i within ih =>
      rw [within_iff] at within
      rw [members_of_within within, progression_of_within moves within]
      cases found : indexBelow i unbounded with
      | error fault => exact ⟨1, by simp, .refused within found⟩
      | ok first =>
          cases next : Word.add? i step with
          | some j =>
              obtain ⟨rounds, few, runs⟩ := ih j next
              rw [Word.toInt_of_add? next] at few
              exact ⟨rounds + 1, by simpa using few, .next within found next runs⟩
          | none => exact ⟨1, by simp, .lastWord within found next⟩
  | case2 i past =>
      rw [within_iff] at past
      exact ⟨0, Nat.zero_le _, members_of_past past ▸ .past past⟩

/-- A negative member lies between the first member and the end or zero, so it is a word. -/
theorem toInt_ofInt_of_mem {start step last : Int64} (moves : step.toInt ≠ 0) {x : Int}
    (mem : x ∈ progression start.toInt step.toInt last.toInt) (negative : x < 0) :
    (Int64.ofInt x).toInt = x := by
  obtain ⟨k, found⟩ := List.mem_iff_getElem?.mp mem
  obtain ⟨rfl, within⟩ := (getElem?_progression moves k x).mp found
  have least : Int64.minValue.toInt ≤ start.toInt + k * step.toInt := by
    rcases within with ⟨up, -⟩ | ⟨-, here⟩
    · have := start.minValue_le_toInt
      have := Int.mul_nonneg (Int.natCast_nonneg k) up.le
      omega
    · exact last.minValue_le_toInt.trans here
  exact Int64.toInt_ofInt_of_le least (by omega)

/-- Indices are enumerated exactly as the members of the progression up to its end, or the first negative
member is reported; and the enumeration stops, with at most one round for each member. -/
theorem sequence_enumerates (start step last : Int64) :
    (step = 0 → sequence start step last = .error .zeroStep) ∧
    (step ≠ 0 → ∃ members : List Int,
      (∀ (k : Nat) x, members[k]? = some x ↔
        x = start.toInt + k * step.toInt ∧ Within step.toInt last.toInt x) ∧
      ((∀ x ∈ members, 0 ≤ x) → sequence start step last = .ok (members.map Int.toNat)) ∧
      (∀ x, members.find? (· < 0) = some x → ∃ i : Int64, i.toInt = x ∧
        sequence start step last = .error (.indexOutOfBounds i unbounded)) ∧
      ∃ rounds ≤ members.length, Runs step last start rounds (sequence start step last)) := by
  refine ⟨fun zero => if_pos zero, fun nonzero => ?_⟩
  have moves : step.toInt ≠ 0 := fun zero => nonzero (Int64.toInt_inj.mp zero)
  rw [sequence, if_neg nonzero]
  refine ⟨progression start.toInt step.toInt last.toInt, getElem?_progression moves, fun nonneg => ?_,
    fun x found => ?_, runs_members moves start⟩
  · rw [members_eq moves, indices, List.find?_eq_none.mpr (by simpa using nonneg)]
    rfl
  · refine ⟨Int64.ofInt x, toInt_ofInt_of_mem moves (List.mem_of_find?_eq_some found) ?_, ?_⟩
    · simpa using List.find?_some found
    · rw [members_eq moves, indices, found]
      rfl

/-- Down by threes from five, minus one is the first negative member; up by twos to the last word, the member
behind it is none. -/
theorem sequence_pastZero :
    (sequence 0 0 2 = .error .zeroStep) ∧
    (∃ i : Int64, i.toInt = -1 ∧ sequence 5 (-3) (-7) = .error (.indexOutOfBounds i unbounded)) ∧
    sequence (Int64.maxValue - 2) 2 Int64.maxValue = .ok [9223372036854775805, 9223372036854775807] := by
  refine ⟨(sequence_enumerates 0 0 2).1 rfl, ?_, ?_⟩
  · obtain ⟨members, listed, -, failing, -⟩ := (sequence_enumerates 5 (-3) (-7)).2 (by decide)
    obtain rfl := eq_progression (by decide) listed
    exact failing (-1) (by decide)
  · obtain ⟨members, listed, good, -⟩ :=
      (sequence_enumerates (Int64.maxValue - 2) 2 Int64.maxValue).2 (by decide)
    obtain rfl := eq_progression (by decide) listed
    exact good (by decide)

end Progression
end MatrixCode
