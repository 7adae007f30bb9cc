import MatrixCode.Proofs.Binary

/-!
The shortest digits of a double. Seventeen digits always suffice to tell a double from
its neighbours, so the search for the fewest digits succeeds, and what it finds lies
in the rounding interval of the double.
-/

namespace MatrixCode
namespace Decimal

section Point

theorem belowPower_iff {num den : Nat} (hd : 0 < den) (power : Int) :
    belowPower num den power = true ↔ (num : ℚ) / den < 10 ^ power := by
  have ten : 0 < 10 := by decide
  have pos := Binary.scaleDown_pos ten hd num power
  have ratio := Binary.scaleDown_ratio ten num den power
  simp only [belowPower, decide_eq_true_eq]
  rw [← @Nat.cast_lt ℚ, ← div_lt_one (by exact_mod_cast pos), ratio, div_lt_one (by positivity)]
  norm_num

theorem pointFrom_spec {num den : Nat} (hd : 0 < den) (fuel : Nat) (power : Int)
    (lower : (10 : ℚ) ^ (power - 1) ≤ num / den) (upper : (num : ℚ) / den < 10 ^ (power + fuel)) :
    (10 : ℚ) ^ (pointFrom num den fuel power - 1) ≤ num / den ∧
      (num : ℚ) / den < 10 ^ pointFrom num den fuel power := by
  induction fuel generalizing power with
  | zero => exact ⟨lower, by simpa [pointFrom] using upper⟩
  | succ fuel ih =>
      simp only [pointFrom]
      split
      · next below => exact ⟨lower, (belowPower_iff hd power).mp below⟩
      · next above =>
          apply ih
          · rw [belowPower_iff hd, not_lt] at above
            simpa using above
          · convert upper using 2
            push_cast
            ring

/-- Powers of two and of ten are close where the exponents of doubles lie. -/
theorem powers_close_nat : ∀ n < 1100,
    (10 ^ (n * 30103 / 100000) ≤ 100 * 2 ^ n ∧ 2 ^ (n + 2) ≤ 10 ^ (n * 30103 / 100000 + 7)) ∧
    2 ^ n ≤ 10 ^ ((n * 30103 + 99999) / 100000 + 2) ∧
      4 * 10 ^ ((n * 30103 + 99999) / 100000) ≤ 10 ^ 7 * 2 ^ n := by
  decide +kernel

theorem powers_close {b : ℤ} (hb : b.natAbs < 1100) :
    (10 : ℚ) ^ (b * 30103 / 100000 - 2) ≤ 2 ^ b ∧ (2 : ℚ) ^ (b + 2) ≤ 10 ^ (b * 30103 / 100000 + 7) := by
  obtain ⟨n, rfl | rfl⟩ := Int.eq_nat_or_neg b
  · obtain ⟨⟨lower, upper⟩, -⟩ := powers_close_nat n (by simpa using hb)
    have floor : (n : ℤ) * 30103 / 100000 = (n * 30103 / 100000 : Nat) := by simp
    rw [floor]
    constructor
    · rw [zpow_sub₀ (by norm_num), div_le_iff₀ (by positivity), zpow_natCast, zpow_natCast]
      have : (10 : ℚ) ^ (n * 30103 / 100000) ≤ 100 * 2 ^ n := by exact_mod_cast lower
      linarith
    · exact_mod_cast upper
  · obtain ⟨-, lower, upper⟩ := powers_close_nat n (by simpa using hb)
    have floor : -(n : ℤ) * 30103 / 100000 = -((n * 30103 + 99999) / 100000 : Nat) := by
      push_cast
      omega
    rw [floor]
    constructor
    · rw [show ∀ k : ℤ, -k - 2 = -(k + 2) by intro k; ring, zpow_neg, zpow_neg,
        inv_le_inv₀ (by positivity) (by positivity)]
      exact_mod_cast lower
    · rw [add_comm _ (2 : ℤ), add_comm _ (7 : ℤ), ← sub_eq_add_neg, ← sub_eq_add_neg,
        zpow_sub₀ (by norm_num), zpow_sub₀ (by norm_num), div_le_div_iff₀ (by positivity) (by positivity)]
      exact_mod_cast upper

/-- The decimal point stands behind the digits before it and no further. -/
theorem pointOf_spec {num den : Nat} (hn : num ≠ 0) (hd : den ≠ 0)
    (bits : ((num.log2 : ℤ) - den.log2 - 1).natAbs < 1100) :
    (10 : ℚ) ^ (pointOf num den - 1) ≤ num / den ∧ (num : ℚ) / den < 10 ^ pointOf num den := by
  obtain ⟨lower, upper⟩ := Binary.ratio_bounds hn hd
  obtain ⟨close, close'⟩ := powers_close bits
  refine pointFrom_spec (Nat.pos_of_ne_zero hd) 8 _ (le_trans ?_ lower) (upper.trans_le ?_)
  · rwa [sub_sub, one_add_one_eq_two]
  · rwa [show ∀ k : ℤ, k - 1 + (8 : Nat) = k + 7 by intro k; omega,
      ← show (num.log2 : ℤ) - den.log2 - 1 + 2 = num.log2 - den.log2 + 1 by ring]

end Point

section Digits

theorem length_repr {n k : Nat} (lower : 10 ^ k ≤ n) (upper : n < 10 ^ (k + 1)) :
    (Nat.repr n).toList.length = k + 1 := by
  have atMost := (Nat.length_toDigits_le_iff (b := 10) (n := n) (by decide) k.succ_pos).mpr upper
  rw [Nat.toList_repr]
  cases k with
  | zero =>
      have := Nat.length_toDigits_pos (b := 10) (n := n)
      omega
  | succ k =>
      have more := mt (Nat.length_toDigits_le_iff (b := 10) (n := n) (by decide) k.succ_pos).mp (by omega)
      omega

/-- What the digits and the point stand for. -/
def value (d : Decimal) : ℚ := d.coefficient * 10 ^ (d.point - d.digits.length)

theorem trim_spec (fuel c : Nat) : ∃ zeros, c = trim fuel c * 10 ^ zeros := by
  induction fuel generalizing c with
  | zero => exact ⟨0, by simp [trim]⟩
  | succ fuel ih =>
      simp only [trim]
      split
      · next h =>
          obtain ⟨zeros, hz⟩ := ih (c / 10)
          refine ⟨zeros + 1, ?_⟩
          rw [pow_succ, ← mul_assoc, ← hz]
          omega
      · exact ⟨0, by simp⟩

theorem value_trim (fuel : Nat) (point : Int) {c k : Nat} (lower : 10 ^ k ≤ c) (upper : c < 10 ^ (k + 1)) :
    value ⟨trim fuel c, point⟩ = c * 10 ^ (point - (k + 1)) := by
  obtain ⟨zeros, hz⟩ := trim_spec fuel c
  generalize trim fuel c = a at *
  subst hz
  have fewer : zeros ≤ k := by
    have : 0 < a := Nat.pos_of_mul_pos_right (lower.trans_lt' (by positivity))
    have : 10 ^ zeros < 10 ^ (k + 1) := (Nat.le_mul_of_pos_left _ this).trans_lt upper
    exact Nat.lt_succ_iff.mp ((Nat.pow_lt_pow_iff_right (by decide)).mp this)
  obtain ⟨j, rfl⟩ := Nat.exists_eq_add_of_le' fewer
  have pos : 0 < 10 ^ zeros := by positivity
  have digits : (Nat.repr a).toList.length = j + 1 := by
    apply length_repr
    · exact Nat.le_of_mul_le_mul_right (by rwa [← pow_add]) pos
    · refine Nat.lt_of_mul_lt_mul_right (a := 10 ^ zeros) ?_
      rwa [← pow_add, add_right_comm]
  have shift : point - ((j + 1 : Nat) : ℤ) = (zeros : ℤ) + (point - (((j + zeros : Nat) : ℤ) + 1)) := by
    push_cast
    ring
  simp only [value, Decimal.digits, digits, shift]
  rw [zpow_add₀ (by norm_num), zpow_natCast]
  push_cast
  ring

/-- The neighbour that is chosen lies in the interval. -/
theorem within_spec {value low high den c : Nat} {closed : Bool} (hd : 0 < den)
    (hlow : low < value) (hhigh : value < high) (hc : within value low high den closed = some c) :
    low ≤ c * den ∧ c * den ≤ high ∧ (closed = false → low < c * den ∧ c * den < high) ∧
      (c = value / den ∨ c = value / den + 1) := by
  have floor := Nat.div_add_mod value den
  have small := Nat.mod_lt value hd
  rw [Nat.mul_comm den] at floor
  cases closed <;>
    simp only [within, Bool.false_eq_true, if_false, if_true, forall_const, reduceCtorEq,
      false_implies, true_and] at hc ⊢
  all_goals
    split at hc
    · next h =>
        obtain rfl : value / den + 1 = c := by simpa using hc
        rw [Nat.add_mul, Nat.one_mul] at h ⊢
        omega
    · split at hc
      · next h =>
          obtain rfl : value / den = c := by simpa using hc
          omega
      · cases hc

/-- An interval wider than the unit holds a multiple of it that is a neighbour. -/
theorem within_isSome {low high den : Nat} (value : Nat) (closed : Bool) (wide : low + den < high) :
    ∃ c, within value low high den closed = some c := by
  cases closed <;> simp only [within, Bool.false_eq_true, if_false, if_true]
  all_goals
    split
    · exact ⟨_, rfl⟩
    · next h =>
        rw [Nat.add_mul, Nat.one_mul] at h
        rw [if_pos (by omega)]
        exact ⟨_, rfl⟩

end Digits

section Shortest

variable {m : Nat} {q : Int}

/-- A multiple of a quarter of the last place, in units of a power of ten. -/
def scaled (q power : Int) (n : Nat) : Nat × Nat :=
  Binary.scaleDown 10 (Binary.scaleDown 2 n 1 (2 - q)).1 (Binary.scaleDown 2 n 1 (2 - q)).2 power

/-- The unit does not depend on what is scaled. -/
theorem scaled_unit (q power : Int) (n k : Nat) : (scaled q power n).2 = (scaled q power k).2 := by
  simp only [scaled, Binary.scaleDown]
  split <;> split <;> rfl

theorem scaled_pos (q power : Int) (n : Nat) : 0 < (scaled q power n).2 :=
  Binary.scaleDown_pos (by decide) (Binary.scaleDown_pos two_pos one_pos n (2 - q)) _ power

theorem scaled_ratio (q power : Int) (n : Nat) :
    ((scaled q power n).1 : ℚ) / (scaled q power n).2 = n * 2 ^ (q - 2) / 10 ^ power := by
  rw [scaled, Binary.scaleDown_ratio (by decide), Binary.scaleDown_ratio two_pos]
  rw [← neg_sub 2 q, zpow_neg]
  norm_num
  ring

/-- The digits found when `count` of them are allowed. -/
def candidate (m : Nat) (q point : Int) (count : Nat) : Option Decimal :=
  let power := point - count
  (within (scaled q power (4 * m)).1 (scaled q power (interval m q).1).1
    (scaled q power (interval m q).2).1 (scaled q power (4 * m)).2 (m % 2 = 0)).map fun c =>
      ⟨trim 20 c, if c = 10 ^ count then point + 1 else point⟩

theorem shortest_eq (m : Nat) (q : Int) :
    shortest m q = ((List.range' 1 17).findSome? (candidate m q
      (pointOf (Binary.scaleDown 2 (4 * m) 1 (2 - q)).1 (Binary.scaleDown 2 (4 * m) 1 (2 - q)).2))).getD
        ⟨0, 0⟩ := by
  simp only [shortest]
  rfl

theorem scaled_le_iff (q power : Int) (n c u : Nat) (hu : u = (scaled q power n).2) :
    (scaled q power n).1 ≤ c * u ↔ (n : ℚ) * 2 ^ (q - 2) ≤ c * 10 ^ power := by
  subst hu
  have pos := scaled_pos q power n
  rw [← @Nat.cast_le ℚ, Nat.cast_mul, ← div_le_iff₀ (by exact_mod_cast pos), scaled_ratio,
    div_le_iff₀ (by positivity)]

theorem le_scaled_iff (q power : Int) (n c u : Nat) (hu : u = (scaled q power n).2) :
    c * u ≤ (scaled q power n).1 ↔ (c : ℚ) * 10 ^ power ≤ n * 2 ^ (q - 2) := by
  subst hu
  have pos := scaled_pos q power n
  rw [← @Nat.cast_le ℚ, Nat.cast_mul, ← le_div_iff₀ (by exact_mod_cast pos), scaled_ratio,
    le_div_iff₀ (by positivity)]

theorem scaled_lt_scaled {q power : Int} {n k : Nat} (h : n < k) :
    (scaled q power n).1 < (scaled q power k).1 := by
  have pos : (0 : ℚ) < (scaled q power k).2 := by exact_mod_cast scaled_pos q power k
  have hn := scaled_ratio q power n
  have hk := scaled_ratio q power k
  rw [scaled_unit q power n k, div_eq_iff pos.ne'] at hn
  rw [div_eq_iff pos.ne'] at hk
  rw [← @Nat.cast_lt ℚ, hn, hk]
  have : (n : ℚ) < k := by exact_mod_cast h
  gcongr

theorem candidate_rounds {point : Int} {k : Nat} {d : Decimal} (hm : 0 < m)
    (lower : (10 : ℚ) ^ (point - 1) ≤ m * 2 ^ q) (upper : (m : ℚ) * 2 ^ q < 10 ^ point)
    (hd : candidate m q point (k + 1) = some d) : Binary.Rounds m q d.value := by
  obtain ⟨c, hc, rfl⟩ := Option.map_eq_some_iff.mp hd
  have low : (interval m q).1 < 4 * m := by
    simp only [interval]
    split <;> omega
  have high : 4 * m < (interval m q).2 := by simp [interval]
  obtain ⟨atLeast, atMost, strict, neighbour⟩ :=
    within_spec (scaled_pos q _ _) (scaled_lt_scaled low) (scaled_lt_scaled high) hc
  have unit (n : Nat) := scaled_unit q (point - (k + 1 : Nat)) (4 * m) n
  have pos := scaled_pos q (point - (k + 1 : Nat)) (4 * m)
  generalize hp : point - ((k + 1 : Nat) : ℤ) = power at *
  have whole : ((4 * m : Nat) : ℚ) * 2 ^ (q - 2) = m * 2 ^ q := by
    rw [Binary.Rounds.quarter q]
    push_cast
    ring
  have shift (j : Nat) : ((10 ^ j : Nat) : ℚ) * 10 ^ power = 10 ^ (point - (k + 1) + j) := by
    rw [← hp, Nat.cast_pow, Nat.cast_ofNat, ← zpow_natCast, ← zpow_add₀ (by norm_num)]
    congr 1
    push_cast
    ring
  have size : 10 ^ k ≤ c ∧ c ≤ 10 ^ (k + 1) := by
    have atLeast : 10 ^ k ≤ (scaled q power (4 * m)).1 / (scaled q power (4 * m)).2 := by
      rw [Nat.le_div_iff_mul_le pos, le_scaled_iff q power _ _ _ rfl, whole, shift]
      rwa [show point - ((k : ℤ) + 1) + k = point - 1 by ring]
    have below : (scaled q power (4 * m)).1 / (scaled q power (4 * m)).2 < 10 ^ (k + 1) := by
      rw [Nat.div_lt_iff_lt_mul pos, ← not_le, le_scaled_iff q power _ _ _ rfl, whole, shift, not_le]
      rwa [show point - ((k : ℤ) + 1) + (k + 1 : Nat) = point by push_cast; ring]
    omega
  have value : value ⟨trim 20 c, if c = 10 ^ (k + 1) then point + 1 else point⟩ = c * 10 ^ power := by
    by_cases full : c = 10 ^ (k + 1)
    · rw [if_pos full, value_trim 20 (point + 1) (k := k + 1) full.ge (by rw [full]; gcongr <;> omega)]
      rw [← hp]
      push_cast
      ring_nf
    · rw [if_neg full, value_trim 20 point size.1 (lt_of_le_of_ne size.2 full), ← hp]
      push_cast
      rfl
  rw [value]
  constructor
  · exact (scaled_le_iff q power _ c _ (unit _)).mp atLeast
  · exact (le_scaled_iff q power _ c _ (unit _)).mp atMost
  · intro odd
    obtain ⟨h₁, h₂⟩ := strict (by simp [odd])
    rw [← not_le, le_scaled_iff q power _ c _ (unit _), not_le] at h₁
    rw [← not_le, scaled_le_iff q power _ c _ (unit _), not_le] at h₂
    exact ⟨h₁, h₂⟩

/-- The interval is wider than a unit with which sixteen digits stand before the point. -/
theorem unit_lt_interval {power : Int} (c : Binary.Canonical m q) (hm : 0 < m)
    (fine : (10 : ℚ) ^ power * 10 ^ 16 ≤ m * 2 ^ q) :
    (10 : ℚ) ^ power < ((interval m q).2 - (interval m q).1 : ℚ) * 2 ^ (q - 2) := by
  have quarter : (0 : ℚ) < 2 ^ (q - 2) := by positivity
  rw [Binary.Rounds.quarter q] at fine
  simp only [interval]
  split
  · next start =>
      have : (m : ℚ) = 2 ^ 52 := by rw [start.1]; norm_num
      rw [Nat.cast_sub (by omega)]
      push_cast
      rw [this] at fine ⊢
      linarith
  · have : (m : ℚ) * 2 ^ (q - 2) < 2 ^ 53 * 2 ^ (q - 2) := by
      gcongr
      exact_mod_cast c.fits
    rw [Nat.cast_sub (by omega)]
    push_cast
    linarith

theorem scaled_wide {power : Int}
    (gap : (10 : ℚ) ^ power < ((interval m q).2 - (interval m q).1 : ℚ) * 2 ^ (q - 2)) :
    (scaled q power (interval m q).1).1 + (scaled q power (4 * m)).2 <
      (scaled q power (interval m q).2).1 := by
  have low := scaled_ratio q power (interval m q).1
  have high := scaled_ratio q power (interval m q).2
  have pos : (0 : ℚ) < (scaled q power (4 * m)).2 := by exact_mod_cast scaled_pos q power (4 * m)
  rw [scaled_unit q _ _ (4 * m), div_eq_iff pos.ne'] at low high
  rw [← one_lt_div (by positivity)] at gap
  rw [← @Nat.cast_lt ℚ, Nat.cast_add, low, high, ← sub_pos]
  have := mul_pos (sub_pos.mpr gap) pos
  ring_nf at this ⊢
  exact this

/-- Seventeen digits suffice. -/
theorem candidate_seventeen {point : Int} (c : Binary.Canonical m q) (hm : 0 < m)
    (lower : (10 : ℚ) ^ (point - 1) ≤ m * 2 ^ q) : ∃ d, candidate m q point 17 = some d := by
  have fine : (10 : ℚ) ^ (point - (17 : Nat)) * 10 ^ 16 ≤ m * 2 ^ q := by
    convert lower using 1
    rw [← zpow_natCast, ← zpow_add₀ (by norm_num)]
    congr 1
    push_cast
    ring
  obtain ⟨n, hn⟩ := within_isSome (scaled q (point - (17 : Nat)) (4 * m)).1 (m % 2 = 0)
    (scaled_wide (unit_lt_interval c hm fine))
  exact ⟨⟨trim 20 n, if n = 10 ^ 17 then point + 1 else point⟩,
    by simp only [candidate, hn, Option.map_some]⟩

/-- The numerator and the denominator of a double differ by at most 1100 bits. -/
theorem bits_lt (c : Binary.Canonical m q) :
    (((Binary.scaleDown 2 (4 * m) 1 (2 - q)).1.log2 : ℤ) -
      (Binary.scaleDown 2 (4 * m) 1 (2 - q)).2.log2 - 1).natAbs < 1100 := by
  have least : -1074 ≤ q := c.least
  have greatest : q ≤ 971 := c.greatest
  have fits := c.fits
  have log2_le {n k : Nat} (hn : n < 2 ^ (k + 1)) : n.log2 ≤ k := by
    by_cases h : n = 0
    · simp [h]
    · exact Nat.lt_succ_iff.mp ((Nat.log2_lt h).mpr hn)
  simp only [Binary.scaleDown]
  split
  · next small =>
      have := log2_le (n := 4 * m) (k := 54) (by omega)
      simp only [one_mul, Nat.log2_two_pow]
      omega
  · next large =>
      have := log2_le (n := 4 * m * 2 ^ (-(2 - q)).toNat) (k := 54 + (-(2 - q)).toNat) (by
        rw [add_right_comm, pow_add]
        exact Nat.mul_lt_mul_of_pos_right (by omega) (by positivity))
      simp only [show Nat.log2 1 = 0 by decide]
      omega

/-- The digits found for a double are read as that double. -/
theorem shortest_rounds (c : Binary.Canonical m q) (hm : 0 < m) :
    Binary.Rounds m q (shortest m q).value := by
  have ratio : ((Binary.scaleDown 2 (4 * m) 1 (2 - q)).1 : ℚ) /
      (Binary.scaleDown 2 (4 * m) 1 (2 - q)).2 = m * 2 ^ q := by
    rw [Binary.scaleDown_ratio two_pos, Nat.cast_two, zpow_sub₀ two_ne_zero]
    push_cast
    field_simp
  have pos := Binary.scaleDown_pos two_pos one_pos (4 * m) (2 - q)
  have nonzero : (Binary.scaleDown 2 (4 * m) 1 (2 - q)).1 ≠ 0 := by
    intro zero
    have : (0 : ℚ) < m * 2 ^ q := by positivity
    simp [zero, ← ratio] at this
  have point := pointOf_spec nonzero pos.ne' (bits_lt c)
  rw [ratio] at point
  rw [shortest_eq]
  generalize pointOf (Binary.scaleDown 2 (4 * m) 1 (2 - q)).1
    (Binary.scaleDown 2 (4 * m) 1 (2 - q)).2 = k at point ⊢
  obtain ⟨d, hd⟩ := candidate_seventeen c hm point.1
  cases found : (List.range' 1 17).findSome? (candidate m q k) with
  | none =>
      have := List.findSome?_eq_none_iff.mp found 17 (by simp)
      simp [hd] at this
  | some d =>
      obtain ⟨count, hcount, hd⟩ := List.exists_of_findSome?_eq_some found
      obtain ⟨j, rfl⟩ := Nat.exists_eq_add_of_le' (List.mem_range'_1.mp hcount).1
      exact candidate_rounds hm point.1 point.2 hd

end Shortest
end Decimal
end MatrixCode
