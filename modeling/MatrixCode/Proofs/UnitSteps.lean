import MatrixCode.Proofs.Addressing
import MatrixCode.Proofs.Lexing
import MatrixCode.Proofs.Progressions

/-!
Ranges by ones. The same range is a block when it is seen from its form that the step is one, and is listed
when the step is a variable that holds one, or when the range is part of a union. Whenever both forms can be
resolved, they select the same indices. A block checks both of its ends, also where it selects nothing, and
it needs the index past its last one; a listed range checks the indices that it selects. So the two differ
where a range that selects nothing has a negative end, and where a range ends at the last word.
-/

namespace MatrixCode

namespace Progression

/-- The indices from `a` to `b`, both included. -/
def between (a b : Int64) : List Nat := List.range' a.toInt.toNat (b.toInt + 1 - a.toInt).toNat

theorem between_eq_nil_iff {a b : Int64} : between a b = [] ↔ b < a := by
  rw [between, List.range'_eq_nil_iff, Int64.lt_iff_toInt_lt]
  omega

theorem toOption_toIndex (i : Int64) :
    (toIndex i).toOption = if 0 ≤ i then some i.toInt.toNat else none := by
  have order : 0 ≤ i ↔ 0 ≤ i.toInt := Int64.le_iff_toInt_le
  unfold toIndex
  by_cases positive : 0 ≤ i.toInt <;> simp [order, positive]

/-- The index past the last word is none, though it would not be negative. -/
theorem toOption_toIndexAfter (i : Int64) :
    (toIndexAfter i).toOption =
      if -1 ≤ i ∧ i < Int64.maxValue then some (i.toInt + 1).toNat else none := by
  have low : -1 ≤ i ↔ -1 ≤ i.toInt := Int64.le_iff_toInt_le
  have high : i < Int64.maxValue ↔ i.toInt < Int64.maxValue.toInt := Int64.lt_iff_toInt_lt
  have least := i.minValue_le_toInt
  simp only [low, high]
  rw [toIndexAfter, Word.add?, show Int64.toInt 1 = 1 from rfl]
  cases next : Word.ofInt? (i.toInt + 1) with
  | none =>
      have last : ¬i.toInt < Int64.maxValue.toInt := fun small => by
        rw [Word.ofInt?, if_pos ⟨by omega, by omega⟩] at next
        cases next
      simp [last]
  | some n =>
      have value : n.toInt = i.toInt + 1 := Grammar.toInt_of_ofInt? next
      have most := n.toInt_le
      have positive : 0 ≤ n ↔ -1 ≤ i.toInt ∧ i.toInt < Int64.maxValue.toInt := by
        rw [Int64.le_iff_toInt_le, value, Int64.toInt_zero]
        omega
      simp only [toOption_toIndex, positive, value]

theorem toOption_indices (members : List Int) :
    (indices members).toOption = if ∀ x ∈ members, 0 ≤ x then some (members.map Int.toNat) else none := by
  have nonneg : members.find? (· < 0) = none ↔ ∀ x ∈ members, 0 ≤ x := by simp
  simp only [← nonneg, indices]
  cases members.find? (· < 0) <;> simp

theorem map_toNat_progression_one {a b : Int64} (positive : 0 ≤ a.toInt) :
    (progression a.toInt 1 b.toInt).map Int.toNat = between a b := by
  have length : count a.toInt 1 b.toInt = (b.toInt + 1 - a.toInt).toNat := by
    rw [count, if_pos Int.one_pos, Int.ediv_one]
    omega
  rw [progression, length, between, List.range'_eq_map_range, List.map_map]
  refine List.map_congr_left fun k _ => ?_
  rw [Function.comp_apply]
  omega

/-- Only the first of the indices by ones can be negative while the others are not. -/
theorem toOption_sequence_one (a b : Int64) :
    (sequence a 1 b).toOption = if b < a ∨ 0 ≤ a then some (between a b) else none := by
  have reversed : b < a ↔ b.toInt < a.toInt := Int64.lt_iff_toInt_lt
  have positive : 0 ≤ a ↔ 0 ≤ a.toInt := Int64.le_iff_toInt_le
  have up : (1 : Int) ≠ 0 := Int.one_ne_zero
  rw [sequence, if_neg (by decide), members_eq (by decide), toOption_indices,
    show Int64.toInt 1 = 1 from rfl]
  simp only [reversed, positive]
  by_cases past : b.toInt < a.toInt
  · rw [progression_of_past up (by simp [Within, past]), between_eq_nil_iff.mpr (reversed.mpr past)]
    simp [past]
  · have within : Within 1 b.toInt a.toInt := .inl ⟨Int.one_pos, Int.not_lt.mp past⟩
    by_cases nonneg : 0 ≤ a.toInt
    · have all : ∀ x ∈ progression a.toInt 1 b.toInt, 0 ≤ x := fun x mem => by
        obtain ⟨k, -, rfl⟩ := List.mem_map.mp mem
        omega
      rw [if_pos all, if_pos (.inr nonneg), map_toNat_progression_one nonneg]
    · rw [progression_of_within up within, if_neg fun all => nonneg (all _ List.mem_cons_self)]
      simp [past, nonneg]

end Progression

/-- A range from `first` to `last` by ones, alone or in unions of its own. -/
inductive IndexRange.ByOne (value : Handle → Outcome Int64) (first last : Handle) : IndexRange → Prop where
  | plain : ByOne value first last (.span first none last)
  | stepped {step : Handle} (one : value step = .ok 1) : ByOne value first last (.span first (some step) last)
  | union {r : IndexRange} (byOne : ByOne value first last r) : ByOne value first last (.union [r])

/-- The indices that an extent selects, if it can be resolved. -/
def Extent.indices? (e : Extent) (length : Nat) (value : Handle → Outcome Int64) : Option (List Nat) :=
  (e.resolve length value).toOption.map Selection.indices

section Forms

variable {t : Table} {value : Handle → Outcome Int64} {first last : Handle} {a b : Int64} {r : IndexRange}

theorem IndexRange.ByOne.parts (byOne : r.ByOne value first last) :
    ∃ step, r.parts = [.span first step last] ∧ Part.valueOr value 1 step = .ok 1 := by
  induction byOne with
  | plain => exact ⟨none, by rw [IndexRange.parts], rfl⟩
  | @stepped step one => exact ⟨some step, by rw [IndexRange.parts], one⟩
  | union byOne ih =>
      obtain ⟨step, parts, one⟩ := ih
      exact ⟨step, by rw [IndexRange.parts, IndexRange.partsAll, IndexRange.partsAll, parts,
        List.append_nil], one⟩

namespace Extent

theorem indices?_block (ha : value first = .ok a) (hb : value last = .ok b) (length : Nat) :
    (block (.value first) (.past last)).indices? length value =
      if 0 ≤ a ∧ -1 ≤ b ∧ b < Int64.maxValue then some (Progression.between a b) else none := by
  have start : ((Endpoint.value first).resolve length value).toOption =
      (Progression.toIndex a).toOption := by
    simp [Endpoint.resolve, ha]
  have stop : ((Endpoint.past last).resolve length value).toOption =
      (Progression.toIndexAfter b).toOption := by
    simp [Endpoint.resolve, hb]
  simp only [indices?, resolve, Outcome.toOption_bind, start, stop, Progression.toOption_toIndex,
    Progression.toOption_toIndexAfter]
  by_cases positive : 0 ≤ a
  · by_cases ends : -1 ≤ b ∧ b < Int64.maxValue
    · have count : (b.toInt + 1).toNat - a.toInt.toNat = (b.toInt + 1 - a.toInt).toNat := by
        have := Int64.le_iff_toInt_le.mp positive
        have := Int64.le_iff_toInt_le.mp ends.1
        simp only [Int64.toInt_zero, Int64.toInt_neg] at *
        omega
      simp only [if_pos positive, if_pos ends, if_pos (And.intro positive ends), Option.bind_some,
        Outcome.toOption_pure, Option.map_some, Selection.indices, count, Progression.between]
    · simp [positive, ends]
  · simp [positive]

theorem indices?_listed (byOne : r.ByOne value first last) (ha : value first = .ok a)
    (hb : value last = .ok b) (length : Nat) :
    (listed r.parts).indices? length value =
      if b < a ∨ 0 ≤ a then some (Progression.between a b) else none := by
  obtain ⟨step, parts, one⟩ := byOne.parts
  have part : (Part.resolve length value (.span first step last)).toOption =
      (Progression.sequence a 1 b).toOption := by
    simp [Part.resolve, one, ha, hb]
  rw [← Progression.toOption_sequence_one, ← part, indices?, resolve, parts]
  cases made : Part.resolve length value (.span first step last) <;> simp [made, Selection.indices]

theorem ofRange_of_classify {h : Handle} {e : Extent} (content : t.content? h = some (.sequence r))
    (classified : classify t h = .ok e) : ofRange t r = .ok e := by
  obtain ⟨v, found, hc⟩ := Option.map_eq_some_iff.mp content
  simpa [classify, Table.lookup, found, hc, bind, Except.bind] using classified

/-- A block among the ranges by ones stands alone, and everything else is listed. -/
theorem eq_of_byOne (byOne : r.ByOne value first last) {e : Extent} (found : ofRange t r = .ok e) :
    e = if e.isBlock then block (.value first) (.past last) else listed r.parts := by
  have spanned (step : Option Handle) (found : ofRange t (.span first step last) = .ok e) :
      e = if e.isBlock then block (.value first) (.past last)
        else listed (IndexRange.parts (.span first step last)) := by
    rw [ofRange] at found
    cases unit : isUnitStep t step with
    | error failure =>
        rw [unit] at found
        cases found
    | ok isUnit =>
        rw [unit] at found
        cases isUnit <;> cases found <;> rfl
  cases byOne with
  | plain => exact spanned none found
  | stepped one => exact spanned _ found
  | union byOne =>
      cases found
      rfl

/-- Ranges by ones select the same indices as blocks and as lists, but for those that select nothing and have
a negative end, and those that end at the last word. -/
theorem resolve_byOne (ha : value first = .ok a) (hb : value last = .ok b) {h h' : Handle}
    {r' : IndexRange} (byOne : r.ByOne value first last) (byOne' : r'.ByOne value first last)
    (content : t.content? h = some (.sequence r)) (content' : t.content? h' = some (.sequence r'))
    {e e' : Extent} (classified : classify t h = .ok e) (classified' : classify t h' = .ok e')
    (block : e.isBlock = true) (listed : e'.isBlock = false) (length : Nat) :
    e.indices? length value =
        (if 0 ≤ a ∧ -1 ≤ b ∧ b < Int64.maxValue then some (Progression.between a b) else none) ∧
      e'.indices? length value =
        (if b < a ∨ 0 ≤ a then some (Progression.between a b) else none) ∧
      (e.indices? length value = e'.indices? length value ↔
        (b < a → 0 ≤ a ∧ -1 ≤ b) ∧ (0 ≤ a → a ≤ b → b < Int64.maxValue)) ∧
      (b < a → e'.indices? length value = some [] ∧
        (0 ≤ a → -1 ≤ b → e.indices? length value = some [])) := by
  obtain rfl := (eq_of_byOne byOne (ofRange_of_classify content classified)).trans (if_pos block)
  obtain rfl := (eq_of_byOne byOne' (ofRange_of_classify content' classified')).trans
    (if_neg (by simp [listed]))
  rw [indices?_block ha hb, indices?_listed byOne' ha hb]
  refine ⟨rfl, rfl, ?_, fun reversed => ?_⟩
  · have order {x y : Int64} : x ≤ y ↔ x.toInt ≤ y.toInt := Int64.le_iff_toInt_le
    have strict {x y : Int64} : x < y ↔ x.toInt < y.toInt := Int64.lt_iff_toInt_lt
    have most := a.toInt_le
    have alike : (0 ≤ a ∧ -1 ≤ b ∧ b < Int64.maxValue ↔ b < a ∨ 0 ≤ a) ↔
        (b < a → 0 ≤ a ∧ -1 ≤ b) ∧ (0 ≤ a → a ≤ b → b < Int64.maxValue) := by
      simp only [order, strict, show Int64.toInt 0 = 0 from rfl, show Int64.toInt (-1) = -1 from rfl]
      omega
    rw [← alike]
    split <;> split <;> simp_all
  · have small : b < Int64.maxValue :=
      Int64.lt_iff_toInt_lt.mpr (lt_of_lt_of_le (Int64.lt_iff_toInt_lt.mp reversed) a.toInt_le)
    rw [Progression.between_eq_nil_iff.mpr reversed]
    exact ⟨if_pos (.inl reversed), fun here there => if_pos ⟨here, there, small⟩⟩

end Extent
end Forms

/-- The words `a` and `b`, and an integer `s`; the ranges from `a` to `b` without a step, by `s`, and in a
union. -/
def Table.spanning (a b : Int64) : Table where
  entries := #[.integerLiteral a, .integerLiteral b, .named "s" .integer,
    .named "plain" (.sequence (.span ⟨0⟩ none ⟨1⟩)),
    .named "stepped" (.sequence (.span ⟨0⟩ (some ⟨2⟩) ⟨1⟩)),
    .named "union" (.sequence (.union [.span ⟨0⟩ none ⟨1⟩]))]
  literals := []

/-- Where `s` is one. -/
def Table.spanningValues (a b : Int64) (h : Handle) : Outcome Int64 := .ok ([a, b, 1].getD h.index 0)

/-- From five to two there is nothing, whatever the form. -/
theorem Extent.resolve_fiveToTwo :
    let t := Table.spanning 5 2
    let value := Table.spanningValues 5 2
    ∃ e e' e'', classify t ⟨3⟩ = .ok e ∧ classify t ⟨4⟩ = .ok e' ∧ classify t ⟨5⟩ = .ok e'' ∧
      e.indices? 9 value = some [] ∧ e'.indices? 9 value = some [] ∧ e''.indices? 9 value = some [] := by
  intro t value
  have five : value ⟨0⟩ = .ok 5 := rfl
  have two : value ⟨1⟩ = .ok 2 := rfl
  have alone : classify t ⟨3⟩ = .ok (block (.value ⟨0⟩) (.past ⟨1⟩)) := rfl
  have bySteps : classify t ⟨4⟩ = .ok (listed [.span ⟨0⟩ (some ⟨2⟩) ⟨1⟩]) :=
    Outcome.toOption_eq_some.mp (by decide +kernel)
  have within : classify t ⟨5⟩ = .ok (listed [.span ⟨0⟩ none ⟨1⟩]) := rfl
  obtain ⟨-, -, -, nothing⟩ := resolve_byOne five two .plain (.stepped rfl) rfl rfl alone bySteps rfl rfl 9
  obtain ⟨-, -, -, nothing'⟩ := resolve_byOne five two .plain (.union .plain) rfl rfl alone within rfl rfl 9
  obtain ⟨second, first⟩ := nothing (by decide)
  exact ⟨_, _, _, alone, bySteps, within, first (by decide) (by decide), second, (nothing' (by decide)).1⟩

/-- A range that selects nothing is refused as a block when one end is negative, and so is the range of the
last word alone. -/
theorem Extent.resolve_refused :
    (∃ e e', classify (.spanning 5 (-2)) ⟨3⟩ = .ok e ∧ classify (.spanning 5 (-2)) ⟨4⟩ = .ok e' ∧
      e.indices? 9 (Table.spanningValues 5 (-2)) = none ∧
      e'.indices? 9 (Table.spanningValues 5 (-2)) = some []) ∧
    ∃ e e', classify (.spanning Int64.maxValue Int64.maxValue) ⟨3⟩ = .ok e ∧
      classify (.spanning Int64.maxValue Int64.maxValue) ⟨5⟩ = .ok e' ∧
      e.indices? 9 (Table.spanningValues Int64.maxValue Int64.maxValue) = none ∧
      e'.indices? 9 (Table.spanningValues Int64.maxValue Int64.maxValue) = some [9223372036854775807] := by
  refine ⟨⟨_, _, rfl, rfl, ?_, ?_⟩, _, _, rfl, rfl, ?_, ?_⟩
  all_goals decide +kernel

end MatrixCode
