import Mathlib
import MatrixCode.Number.Digits

/-!
Doubles and rounding. The bits of a finite double and its mantissa and exponent
determine each other. A positive ratio is rounded to the double in whose rounding
interval it lies: up to half a unit in the last place away, and only a quarter below
the smallest mantissa of a binade, where the next doubles are twice as dense.
-/

namespace MatrixCode
namespace Binary

section Bits

open Float.Model Float.Model.UnpackedFloat

/-- The bits of a double as a number: sign, exponent and mantissa side by side. -/
theorem toNat_packComponents (s : Sign) (e : BitVec 11) (f : BitVec 52) :
    (packComponents Format.binary64 s e f).toNat =
      s.toBitVec.toNat * 2 ^ 63 + e.toNat * 2 ^ 52 + f.toNat := by
  have he := e.isLt
  have hf := f.isLt
  simp only [packComponents, BitVec.toNat_append]
  rw [← Nat.shiftLeft_add_eq_or_of_lt he, ← Nat.shiftLeft_add_eq_or_of_lt hf]
  simp only [Nat.shiftLeft_eq]
  omega

theorem toNat_unpackMantissa (b : BitVec Format.binary64.numBits) :
    (unpackMantissa b).toNat = b.toNat % 2 ^ 52 := by
  simp [unpackMantissa]

theorem toNat_unpackExponent (b : BitVec Format.binary64.numBits) :
    (unpackExponent b).toNat = b.toNat / 2 ^ 52 % 2 ^ 11 := by
  simp [unpackExponent, Nat.shiftRight_eq_div_pow]

theorem toNat_unpackSign (b : BitVec Format.binary64.numBits) :
    (unpackSign b).toNat = b.toNat / 2 ^ 63 := by
  have hb : b.toNat < 2 ^ 64 := b.isLt
  simp [unpackSign, Nat.shiftRight_eq_div_pow]
  omega

theorem toNat_toBitVec_ofBitVec (b : BitVec 1) : (Sign.ofBitVec b).toBitVec.toNat = b.toNat := by
  revert b
  decide

/-- What `pack` makes of a finite number whose mantissa and exponent fit. -/
theorem pack_finite (s : Sign) (m : Nat) (e : Int) (hm : 0 < m) (e' : Nat) (he : e + 1075 = e')
    (fits : e' < 2047) :
    UnpackedFloat.pack Format.binary64 (.finite s m e hm) =
      packComponents Format.binary64 s (if m.log2 = 52 then BitVec.ofNat 11 e' else 0#11)
        (BitVec.ofNat 52 m) := by
  have biased : (e + ((2 ^ 10 - 1 : Nat) : Int) + (52 : Nat)).toNat = e' := by omega
  change (if 2 ^ 11 ≤ (e + ((2 ^ 10 - 1 : Nat) : Int) + (52 : Nat)).toNat + 1 then _
    else if m.log2 + 1 = 1 + 52 then
      packComponents Format.binary64 s
        (BitVec.ofNat 11 (e + ((2 ^ 10 - 1 : Nat) : Int) + (52 : Nat)).toNat) (BitVec.ofNat 52 m)
    else packComponents Format.binary64 s 0#11 (BitVec.ofNat 52 m)) = _
  rw [biased, if_neg (by omega)]
  by_cases normal : m.log2 = 52
  · rw [if_pos (by omega), if_pos normal]
  · rw [if_neg (by omega), if_neg normal]

theorem pack_unpack (b : BitVec Format.binary64.numBits) (hb : b.toNat / 2 ^ 52 % 2 ^ 11 ≠ 2047) :
    UnpackedFloat.pack Format.binary64 (UnpackedFloat.unpack Format.binary64 b) = b := by
  have mantissa := toNat_unpackMantissa b
  have exponent := toNat_unpackExponent b
  have size : b.toNat < 2 ^ 64 := b.isLt
  have notAll : unpackExponent b ≠ -1#11 := by
    intro h
    rw [h] at exponent
    exact hb exponent.symm
  have packed (e : BitVec 11) (f : BitVec 52) (he : e.toNat = b.toNat / 2 ^ 52 % 2 ^ 11)
      (hf : f.toNat = b.toNat % 2 ^ 52) :
      packComponents Format.binary64 (Sign.ofBitVec (unpackSign b)) e f = b := by
    apply BitVec.eq_of_toNat_eq
    rw [toNat_packComponents, toNat_toBitVec_ofBitVec, toNat_unpackSign, he, hf]
    omega
  unfold UnpackedFloat.unpack
  simp only [notAll, ↓reduceIte]
  split
  · next zero =>
      rw [zero] at exponent
      split
      · next none =>
          rw [none] at mantissa
          exact packed 0 0 exponent mantissa
      · next positive =>
          have small : (unpackMantissa b).toNat.log2 < 52 := by
            refine (Nat.log2_lt ?_).mpr (unpackMantissa b).isLt
            simpa [← BitVec.toNat_inj] using positive
          rw [pack_finite _ _ _ _ 1 (by simp [zero, Format.exponentBias]) (by decide), if_neg small.ne]
          exact packed _ _ exponent (by simpa using mantissa)
  · next nonzero =>
      have whole : (1#1 ++ unpackMantissa b).toNat = 2 ^ 52 + (unpackMantissa b).toNat := by
        rw [BitVec.toNat_append, ← Nat.shiftLeft_add_eq_or_of_lt (unpackMantissa b).isLt]
        simp [Nat.shiftLeft_eq]
      have log : (1#1 ++ unpackMantissa b).toNat.log2 = 52 := by
        have := (unpackMantissa b).isLt
        rw [whole]
        exact (Nat.log2_eq_iff (by omega)).mpr (by omega)
      rw [pack_finite _ _ _ _ (unpackExponent b).toNat ?_ (by omega), if_pos log]
      · refine packed _ _ (by simp [exponent]) ?_
        simp only [whole, BitVec.toNat_ofNat, Nat.add_mod_left]
        omega
      · simp only [Format.exponentBias]
        omega

theorem ofBits_toBits (x : Float) (hx : x.toBits.toNat / 2 ^ 52 % 2 ^ 11 ≠ 2047) :
    Float.ofBits x.toBits = x := by
  obtain ⟨⟨bits, valid⟩⟩ := x
  have same := pack_unpack bits.toBitVec hx
  simp only [Float.ofBits, Float.toBits, Float.Model.ofBits, Float.Model.pack, same]

/-- The mantissas and exponents of finite doubles. -/
structure Canonical (m : Nat) (q : Int) : Prop where
  fits : m < 2 ^ 53
  normal : m < 2 ^ 52 → q = leastExponent
  least : leastExponent ≤ q
  greatest : q ≤ greatestExponent

/-- The bits below the sign bit. -/
def magnitude (m : Nat) (q : Int) : Nat :=
  if m < 2 ^ 52 then m else (q + 1075).toNat * 2 ^ 52 + (m - 2 ^ 52)

theorem canonical_of_decode {x : Float} {negative : Bool} {m : Nat} {q : Int}
    (h : decode x = .finite negative m q) : Canonical m q := by
  have least : leastExponent = -1074 := rfl
  have greatest : greatestExponent = 971 := rfl
  have size : x.toBits.toNat < 2 ^ 64 := x.toBits.toNat_lt
  simp only [decode] at h
  split at h
  · split at h <;> cases h
  · split at h
    · obtain ⟨-, rfl, rfl⟩ := Decoded.finite.inj h
      constructor <;> omega
    · obtain ⟨-, rfl, rfl⟩ := Decoded.finite.inj h
      constructor <;> omega

/-- The bits of a finite double: those below the sign bit, and the sign. -/
theorem magnitude_of_decode {x : Float} {negative : Bool} {m : Nat} {q : Int}
    (h : decode x = .finite negative m q) :
    magnitude m q + (if negative then 2 ^ 63 else 0) = x.toBits.toNat ∧
      x.toBits.toNat / 2 ^ 52 % 2 ^ 11 ≠ 2047 := by
  have size : x.toBits.toNat < 2 ^ 64 := x.toBits.toNat_lt
  simp only [decode] at h
  split at h
  · split at h <;> cases h
  · next finite =>
      refine ⟨?_, finite⟩
      split at h
      · obtain ⟨rfl, rfl, rfl⟩ := Decoded.finite.inj h
        simp only [magnitude, decide_eq_true_eq]
        split <;> split <;> omega
      · obtain ⟨rfl, rfl, rfl⟩ := Decoded.finite.inj h
        simp only [magnitude, decide_eq_true_eq]
        split <;> split <;> omega

theorem ofMagnitude_of_decode {x : Float} {negative : Bool} {m : Nat} {q : Int}
    (h : decode x = .finite negative m q) : ofMagnitude negative (magnitude m q) = x := by
  obtain ⟨bits, finite⟩ := magnitude_of_decode h
  rw [ofMagnitude, bits, UInt64.ofNat_toNat, ofBits_toBits x finite]

theorem unpack_eq_abs {b c : BitVec Format.binary64.numBits} (hb : b.toNat < 2 ^ 63)
    (same : c.toNat % 2 ^ 63 = b.toNat) :
    UnpackedFloat.unpack Format.binary64 b = (UnpackedFloat.unpack Format.binary64 c).abs := by
  have mantissa : unpackMantissa b = unpackMantissa c := by
    apply BitVec.eq_of_toNat_eq
    rw [toNat_unpackMantissa, toNat_unpackMantissa]
    omega
  have exponent : unpackExponent b = unpackExponent c := by
    apply BitVec.eq_of_toNat_eq
    rw [toNat_unpackExponent, toNat_unpackExponent]
    omega
  have sign : unpackSign b = 0#1 := by
    apply BitVec.eq_of_toNat_eq
    rw [toNat_unpackSign, Nat.div_eq_of_lt hb]
    rfl
  simp only [UnpackedFloat.unpack, mantissa, exponent, sign]
  split
  · split <;> rfl
  · split
    · split <;> rfl
    · rfl

/-- The absolute value has the same bits below the sign bit. -/
theorem abs_of_decode {x : Float} {negative : Bool} {m : Nat} {q : Int}
    (h : decode x = .finite negative m q) : x.abs = ofMagnitude false (magnitude m q) := by
  obtain ⟨bits, -⟩ := magnitude_of_decode h
  have size : x.toBits.toNat < 2 ^ 64 := x.toBits.toNat_lt
  have small : magnitude m q < 2 ^ 63 := by
    have := (canonical_of_decode h).fits
    have := (canonical_of_decode h).greatest
    have : greatestExponent = 971 := rfl
    simp only [magnitude]
    split <;> omega
  have same : x.toBits.toBitVec.toNat % 2 ^ 63 = (UInt64.ofNat (magnitude m q)).toBitVec.toNat := by
    change x.toBits.toNat % 2 ^ 63 = (UInt64.ofNat (magnitude m q)).toNat
    rw [UInt64.toNat_ofNat', ← bits]
    split <;> omega
  have unpacked := unpack_eq_abs (by rw [← same]; exact Nat.mod_lt _ (by decide)) same
  simp only [ofMagnitude, Bool.false_eq_true, if_false, Nat.add_zero, Float.ofBits, Float.Model.ofBits,
    unpacked]
  rfl

/-- Every double whose exponent bits are not all set is finite, with the sign of its sign bit. -/
theorem decode_ofMagnitude (negative : Bool) {bits : Nat} (small : bits < 2047 * 2 ^ 52) :
    ∃ m q, decode (ofMagnitude negative bits) = .finite negative m q := by
  let b := UInt64.ofNat (bits + if negative then 2 ^ 63 else 0)
  have value : b.toNat = bits + if negative then 2 ^ 63 else 0 := by
    rw [UInt64.toNat_ofNat']
    split <;> omega
  have finite : b.toNat / 2 ^ 52 % 2 ^ 11 ≠ 2047 := by
    rw [value]
    split <;> omega
  have kept : (ofMagnitude negative bits).toBits = b :=
    congrArg UInt64.ofBitVec (pack_unpack b.toBitVec finite)
  have sign : decide (2 ^ 63 ≤ b.toNat) = negative := by
    rw [value]
    cases negative <;> simp
    omega
  simp only [decode, kept, if_neg finite, sign]
  split
  · exact ⟨_, _, rfl⟩
  · exact ⟨_, _, rfl⟩

theorem decode_of_isFinite {x : Float} (h : x.isFinite) :
    ∃ negative m q, decode x = .finite negative m q := by
  have finite : x.toBits.toNat / 2 ^ 52 % 2 ^ 11 ≠ 2047 := by
    intro he
    have all : @unpackExponent Format.binary64 x.toBits.toBitVec = -1#11 :=
      BitVec.eq_of_toNat_eq ((toNat_unpackExponent x.toBits.toBitVec).trans he)
    have infinite : (UnpackedFloat.unpack Format.binary64 x.toBits.toBitVec).isFinite = false := by
      simp only [UnpackedFloat.unpack, all, if_true]
      split <;> rfl
    exact Bool.false_ne_true (infinite.symm.trans h)
  simp only [decode, if_neg finite]
  split
  · exact ⟨_, _, _, rfl⟩
  · exact ⟨_, _, _, rfl⟩

end Bits

section Rounding

theorem scaleDown_pos {base den : Nat} (hb : 0 < base) (hd : 0 < den) (num : Nat) (power : Int) :
    0 < (scaleDown base num den power).2 := by
  simp only [scaleDown]
  split
  · exact Nat.mul_pos hd (Nat.pow_pos hb)
  · exact hd

theorem scaleDown_ratio {base : Nat} (hb : 0 < base) (num den : Nat) (power : Int) :
    ((scaleDown base num den power).1 : ℚ) / (scaleDown base num den power).2 =
      num / den / (base : ℚ) ^ power := by
  have hb' : (base : ℚ) ≠ 0 := by positivity
  simp only [scaleDown]
  split
  · next h =>
      obtain ⟨n, rfl⟩ := Int.eq_ofNat_of_zero_le h
      simp [div_div]
  · next h =>
      obtain ⟨n, rfl⟩ : ∃ n : Nat, power = -n := ⟨(-power).toNat, by omega⟩
      simp
      ring

theorem divideToEven_eq {num den m : Nat} (hd : 0 < den) (lower : (m : ℚ) - 1 / 2 ≤ num / den)
    (upper : (num : ℚ) / den ≤ m + 1 / 2)
    (odd : m % 2 = 1 → (m : ℚ) - 1 / 2 < num / den ∧ (num : ℚ) / den < m + 1 / 2) :
    divideToEven num den = m := by
  have hd' : (0 : ℚ) < den := by exact_mod_cast hd
  have lower : 2 * (m * den) ≤ 2 * num + den := by
    rw [le_div_iff₀ hd'] at lower
    have : 2 * ((m : ℚ) * den) ≤ 2 * num + den := by linarith
    exact_mod_cast this
  have upper : 2 * num ≤ 2 * (m * den) + den := by
    rw [div_le_iff₀ hd'] at upper
    have : 2 * (num : ℚ) ≤ 2 * (m * den) + den := by linarith
    exact_mod_cast this
  have odd : m % 2 = 1 → 2 * (m * den) < 2 * num + den ∧ 2 * num < 2 * (m * den) + den := by
    intro h
    obtain ⟨h₁, h₂⟩ := odd h
    rw [lt_div_iff₀ hd'] at h₁
    rw [div_lt_iff₀ hd'] at h₂
    have h₁ : 2 * ((m : ℚ) * den) < 2 * num + den := by linarith
    have h₂ : 2 * (num : ℚ) < 2 * (m * den) + den := by linarith
    exact ⟨by exact_mod_cast h₁, by exact_mod_cast h₂⟩
  have split := Nat.div_add_mod num den
  have small := Nat.mod_lt num hd
  simp only [divideToEven]
  generalize num / den = c at *
  generalize num % den = r at *
  have above : m < c + 2 := by
    refine Nat.lt_of_mul_lt_mul_right (a := den) ?_
    rw [Nat.add_mul, Nat.mul_comm c den]
    omega
  have below : c < m + 1 := by
    refine Nat.lt_of_mul_lt_mul_right (a := den) ?_
    rw [Nat.add_mul, Nat.mul_comm c den]
    omega
  rcases (by omega : m = c ∨ m = c + 1) with rfl | rfl
  · rw [Nat.mul_comm m den] at *
    rw [if_pos (by omega)]
  · rw [Nat.add_mul, Nat.mul_comm c den] at *
    rw [if_neg (by omega)]

theorem divideToEven_le (num den : Nat) : divideToEven num den ≤ num / den + 1 := by
  simp only [divideToEven]
  split <;> omega

theorem two_zpow_log2_le {n : Nat} (hn : n ≠ 0) : (2 : ℚ) ^ (n.log2 : ℤ) ≤ n := by
  rw [zpow_natCast]
  exact_mod_cast Nat.log2_self_le hn

theorem lt_two_zpow_log2 (n : Nat) : (n : ℚ) < 2 ^ ((n.log2 : ℤ) + 1) := by
  have h : n < 2 ^ (n.log2 + 1) := Nat.lt_log2_self
  have : (n : ℚ) < 2 ^ (n.log2 + 1) := by exact_mod_cast h
  exact_mod_cast this

/-- The binary logarithms of numerator and denominator bound the ratio. -/
theorem ratio_bounds {num den : Nat} (hn : num ≠ 0) (hd : den ≠ 0) :
    (2 : ℚ) ^ ((num.log2 : ℤ) - den.log2 - 1) ≤ num / den ∧
      (num : ℚ) / den < 2 ^ ((num.log2 : ℤ) - den.log2 + 1) := by
  have hd' : (0 : ℚ) < den := by positivity
  constructor
  · rw [le_div_iff₀ hd']
    calc (2 : ℚ) ^ ((num.log2 : ℤ) - den.log2 - 1) * den
        ≤ 2 ^ ((num.log2 : ℤ) - den.log2 - 1) * 2 ^ ((den.log2 : ℤ) + 1) := by
          gcongr
          exact (lt_two_zpow_log2 den).le
      _ = 2 ^ (num.log2 : ℤ) := by
          rw [← zpow_add₀ two_ne_zero]
          congr 1
          ring
      _ ≤ num := two_zpow_log2_le hn
  · rw [div_lt_iff₀ hd']
    calc (num : ℚ) < 2 ^ ((num.log2 : ℤ) + 1) := lt_two_zpow_log2 num
      _ = 2 ^ ((num.log2 : ℤ) - den.log2 + 1) * 2 ^ (den.log2 : ℤ) := by
          rw [← zpow_add₀ two_ne_zero]
          congr 1
          ring
      _ ≤ 2 ^ ((num.log2 : ℤ) - den.log2 + 1) * den := by
          gcongr
          exact two_zpow_log2_le hd

/-- Under the exponent that is chosen for a ratio it has 53 bits before the point, unless
it is too small for that. -/
theorem mantissaExponent_spec {num den : Nat} (hn : num ≠ 0) (hd : den ≠ 0) :
    ∃ e : ℤ, (2 : ℚ) ^ (52 + e) ≤ num / den ∧ (num : ℚ) / den < 2 ^ (53 + e) ∧
      mantissaExponent num den = max leastExponent e := by
  obtain ⟨lower, upper⟩ := ratio_bounds hn hd
  have pos := scaleDown_pos two_pos (Nat.pos_of_ne_zero hd) num ((num.log2 : ℤ) - den.log2 - 52)
  have ratio := scaleDown_ratio two_pos num den ((num.log2 : ℤ) - den.log2 - 52)
  simp only [mantissaExponent]
  generalize scaleDown 2 num den ((num.log2 : ℤ) - den.log2 - 52) = r at *
  obtain ⟨n, d⟩ := r
  generalize (num.log2 : ℤ) - den.log2 = bits at *
  have below : n / d < 2 ^ 52 ↔ (num : ℚ) / den < 2 ^ bits := by
    have scale : ((2 ^ 52 : Nat) : ℚ) * ((2 : Nat) : ℚ) ^ (bits - 52) = 2 ^ bits := by
      rw [Nat.cast_pow, Nat.cast_two, ← zpow_natCast, ← zpow_add₀ two_ne_zero]
      congr 1
      ring
    rw [Nat.div_lt_iff_lt_mul pos, ← @Nat.cast_lt ℚ, Nat.cast_mul,
      ← div_lt_iff₀ (by exact_mod_cast pos), ratio, div_lt_iff₀ (by positivity), scale]
  split
  · next h =>
      refine ⟨bits - 52 - 1, ?_, ?_, rfl⟩
      · rwa [show 52 + (bits - 52 - 1) = bits - 1 by ring]
      · rw [show 53 + (bits - 52 - 1) = bits by ring]
        exact below.mp h
  · next h =>
      refine ⟨bits - 52, ?_, ?_, rfl⟩
      · rw [show 52 + (bits - 52) = bits by ring]
        exact not_lt.mp fun hv => h (below.mpr hv)
      · rwa [show 53 + (bits - 52) = bits + 1 by ring]

/-- The number is read as the double `m * 2 ^ q`: it lies inside the rounding interval, or on
an end of it when the mantissa is even. -/
structure Rounds (m : Nat) (q : Int) (v : ℚ) : Prop where
  lower : ((Decimal.interval m q).1 : ℚ) * 2 ^ (q - 2) ≤ v
  upper : v ≤ ((Decimal.interval m q).2 : ℚ) * 2 ^ (q - 2)
  odd : m % 2 = 1 →
    ((Decimal.interval m q).1 : ℚ) * 2 ^ (q - 2) < v ∧ v < ((Decimal.interval m q).2 : ℚ) * 2 ^ (q - 2)

namespace Rounds

variable {m : Nat} {q : Int} {v : ℚ}

theorem quarter (q : Int) : (2 : ℚ) ^ q = 4 * 2 ^ (q - 2) := by
  rw [zpow_sub₀ two_ne_zero]
  norm_num
  ring

/-- In units of the last place the number is at most a half away from the mantissa. -/
theorem nearby (r : Rounds m q v) (hm : 0 < m) :
    (m : ℚ) - 1 / 2 ≤ v / 2 ^ q ∧ v / 2 ^ q ≤ m + 1 / 2 ∧
      (m % 2 = 1 → (m : ℚ) - 1 / 2 < v / 2 ^ q ∧ v / 2 ^ q < m + 1 / 2) := by
  have low : 4 * (m : ℚ) - 2 ≤ (Decimal.interval m q).1 := by
    have : 4 * m ≤ (Decimal.interval m q).1 + 2 := by
      simp only [Decimal.interval]
      split <;> omega
    have : 4 * (m : ℚ) ≤ (Decimal.interval m q).1 + 2 := by exact_mod_cast this
    linarith
  have high : ((Decimal.interval m q).2 : ℚ) = 4 * m + 2 := by simp [Decimal.interval]
  have unit : (0 : ℚ) < 2 ^ (q - 2) := by positivity
  have low := mul_le_mul_of_nonneg_right low unit.le
  have ⟨lower, upper, odd⟩ := r
  rw [high] at upper odd
  rw [quarter q, le_div_iff₀ (by positivity), div_le_iff₀ (by positivity),
    lt_div_iff₀ (by positivity), div_lt_iff₀ (by positivity)]
  refine ⟨by linarith, by linarith, fun h => ?_⟩
  have := odd h
  constructor <;> linarith

/-- At the start of a binade the number is at most a quarter below the mantissa. -/
theorem nearby_start (r : Rounds (2 ^ 52) q v) (hq : leastExponent < q) :
    (2 : ℚ) ^ 52 - 1 / 4 ≤ v / 2 ^ q := by
  have low : ((Decimal.interval (2 ^ 52) q).1 : ℚ) = 4 * 2 ^ 52 - 1 := by
    simp only [Decimal.interval, hq, and_self, if_true]
    norm_num
  have lower := r.lower
  rw [low] at lower
  rw [quarter q, le_div_iff₀ (by positivity)]
  linarith

end Rounds

theorem nearest_of_mantissa {negative : Bool} {num den m : Nat} {q : Int} (hn : num ≠ 0)
    (c : Canonical m q) (hq : mantissaExponent num den = q)
    (hm : divideToEven (scaleDown 2 num den q).1 (scaleDown 2 num den q).2 = m) :
    nearest negative num den = ofMagnitude negative (magnitude m q) := by
  have fits := c.fits
  have greatest := c.greatest
  simp only [nearest, hn, if_false, hq, hm, magnitude]
  rw [if_neg (show ¬m = 2 ^ 53 by omega), if_neg (by omega)]
  split <;> rfl

theorem exponent_lt {a b : ℤ} {v : ℚ} (ha : (2 : ℚ) ^ a ≤ v) (hb : v < 2 ^ b) : a < b :=
  (zpow_lt_zpow_iff_right₀ one_lt_two).mp (ha.trans_lt hb)

/-- The exponent chosen for a ratio in the interval of a double is that of the double. Only
just below the start of a binade it is one less. -/
theorem mantissaExponent_of_rounds {num den m : Nat} {q : Int} (hn : num ≠ 0) (hd : 0 < den)
    (c : Canonical m q) (hm : 0 < m) (r : Rounds m q (num / den)) :
    mantissaExponent num den = q ∨
      m = 2 ^ 52 ∧ leastExponent < q ∧ (num : ℚ) / den / 2 ^ q < 2 ^ 52 ∧
        mantissaExponent num den = q - 1 := by
  obtain ⟨lower, upper, -⟩ := r.nearby hm
  obtain ⟨e, eLower, eUpper, chosen⟩ := mantissaExponent_spec hn hd.ne'
  have unit : (0 : ℚ) < 2 ^ q := by positivity
  have scale (k : ℤ) : (2 : ℚ) ^ (k + q) = 2 ^ k * 2 ^ q := zpow_add₀ two_ne_zero k q
  have least := c.least
  have normal := c.normal
  have atMost : e ≤ q := by
    have fits : (m : ℚ) + 1 ≤ 2 ^ 53 := by exact_mod_cast c.fits
    have : (num : ℚ) / den < 2 ^ (53 + q) := by
      rw [scale, ← div_lt_iff₀ unit]
      norm_num at fits ⊢
      linarith
    have := exponent_lt eLower this
    omega
  rw [chosen]
  by_cases small : (num : ℚ) / den / 2 ^ q < 2 ^ 52
  · by_cases start : m = 2 ^ 52 ∧ leastExponent < q
    · obtain ⟨rfl, hq⟩ := start
      have below : (num : ℚ) / den < 2 ^ (52 + q) := by
        rw [scale, ← div_lt_iff₀ unit]
        exact_mod_cast small
      have above : (2 : ℚ) ^ (51 + q) ≤ num / den := by
        rw [scale, ← le_div_iff₀ unit]
        refine le_trans ?_ (r.nearby_start hq)
        norm_num
      have := exponent_lt eLower below
      have := exponent_lt above eUpper
      exact .inr ⟨rfl, hq, small, by omega⟩
    · have : m ≤ 2 ^ 52 := by
        have : (m : ℚ) < 2 ^ 52 + 1 := by linarith
        have : m < 2 ^ 52 + 1 := by exact_mod_cast this
        omega
      exact .inl (by omega)
  · have above : (2 : ℚ) ^ (52 + q) ≤ num / den := by
      rw [scale, ← le_div_iff₀ unit]
      exact_mod_cast not_lt.mp small
    have := exponent_lt above eUpper
    exact .inl (by omega)

/-- A positive ratio is rounded to the double in whose interval it lies. -/
theorem nearest_of_rounds {negative : Bool} {num den m : Nat} {q : Int} (hd : 0 < den)
    (c : Canonical m q) (hm : 0 < m) (r : Rounds m q (num / den)) :
    nearest negative num den = ofMagnitude negative (magnitude m q) := by
  obtain ⟨lower, upper, odd⟩ := r.nearby hm
  have ratio := scaleDown_ratio two_pos num den
  have pos := scaleDown_pos two_pos hd num
  have hn : num ≠ 0 := by
    rintro rfl
    have : (1 : ℚ) ≤ m := by exact_mod_cast hm
    simp only [Nat.cast_zero, zero_div] at lower
    linarith
  rcases mantissaExponent_of_rounds hn hd c hm r with hq | ⟨rfl, hq, small, he⟩
  · refine nearest_of_mantissa hn c hq (divideToEven_eq (pos q) ?_ ?_ ?_)
    all_goals rw [ratio q]
    · exact lower
    · exact upper
    · exact odd
  · -- the mantissa is rounded up to 53 bits and one more, which is the start of the binade
    have half : (2 : ℚ) ^ q = 2 * 2 ^ (q - 1) := by
      rw [zpow_sub_one₀ two_ne_zero]
      ring
    have unit : (0 : ℚ) < 2 ^ (q - 1) := by positivity
    have start := r.nearby_start hq
    rw [half, le_div_iff₀ (by positivity)] at start
    rw [half, div_lt_iff₀ (by positivity)] at small
    have rounded : divideToEven (scaleDown 2 num den (q - 1)).1 (scaleDown 2 num den (q - 1)).2 =
        2 ^ 53 := by
      apply divideToEven_eq (pos (q - 1))
      · rw [ratio, le_div_iff₀ (by exact_mod_cast unit)]
        norm_num
        linarith
      · rw [ratio, div_le_iff₀ (by exact_mod_cast unit)]
        norm_num
        linarith
      · norm_num
    have greatest := c.greatest
    simp only [nearest, hn, if_false, he, rounded, if_true, sub_add_cancel, magnitude]
    rw [if_neg (by omega), if_neg (by omega), if_neg (by omega)]

/-- Integers of 64 bits are far from the largest doubles. -/
theorem decode_ofInt {z : Int} (hz : z.natAbs < 2 ^ 64) :
    ∃ m q, decode (ofInt z) = .finite (z < 0) m q := by
  simp only [ofInt, nearest]
  split
  · exact decode_ofMagnitude _ (by decide)
  · next nonzero =>
      obtain ⟨e, lower, upper, chosen⟩ := mantissaExponent_spec nonzero one_ne_zero
      have ratio := scaleDown_ratio two_pos z.natAbs 1 (mantissaExponent z.natAbs 1)
      have pos := scaleDown_pos two_pos one_pos z.natAbs (mantissaExponent z.natAbs 1)
      have small : mantissaExponent z.natAbs 1 < 12 := by
        have : (z.natAbs : ℚ) / (1 : Nat) < 2 ^ (64 : ℤ) := by
          rw [Nat.cast_one, div_one]
          exact_mod_cast hz
        have := exponent_lt lower this
        have : leastExponent = -1074 := rfl
        omega
      have fits : divideToEven (scaleDown 2 z.natAbs 1 (mantissaExponent z.natAbs 1)).1
          (scaleDown 2 z.natAbs 1 (mantissaExponent z.natAbs 1)).2 ≤ 2 ^ 53 := by
        refine (divideToEven_le _ _).trans (Nat.succ_le_of_lt ?_)
        rw [Nat.div_lt_iff_lt_mul pos, ← @Nat.cast_lt ℚ, Nat.cast_mul,
          ← div_lt_iff₀ (by exact_mod_cast pos), ratio, div_lt_iff₀ (by positivity)]
        refine upper.trans_le ?_
        rw [Nat.cast_pow, Nat.cast_two, ← zpow_natCast, ← zpow_add₀ two_ne_zero]
        exact zpow_le_zpow_right₀ one_le_two (by omega)
      clear ratio pos lower upper chosen
      generalize divideToEven _ _ = m at *
      generalize mantissaExponent _ _ = q at *
      have greatest : greatestExponent = 971 := rfl
      by_cases full : m = 2 ^ 53
      · rw [if_pos full]
        dsimp only
        rw [if_neg (by omega), if_neg (by decide)]
        exact decode_ofMagnitude _ (by omega)
      · rw [if_neg full]
        dsimp only
        rw [if_neg (by omega)]
        split
        · exact decode_ofMagnitude _ (by omega)
        · exact decode_ofMagnitude _ (by omega)

end Rounding
end Binary
end MatrixCode
