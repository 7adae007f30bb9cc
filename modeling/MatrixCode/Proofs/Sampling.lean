import MatrixCode.Proofs.Binary
import MatrixCode.Random

/-!
Normal samples. A uniform sample is drawn again as long as it is not above the least normal double, which would
leave no logarithm to take. That is so exactly when the upper bits of the state are all zero, and of the states
without upper bits only zero is followed by another one. So three draws are always enough, whatever the state,
and every matrix of normal samples is finished after a number of draws that its size bounds.
-/

namespace MatrixCode

namespace Binary

section Exact

open Float.Model Float.Model.UnpackedFloat

variable {m : Nat} {e : Int}

theorem log2_mul_two_pow (positive : 0 < m) (k : Nat) : (m * 2 ^ k).log2 = m.log2 + k := by
  induction k with
  | zero => rw [pow_zero, mul_one, add_zero]
  | succ k ih =>
      have twice : m * 2 ^ (k + 1) = 2 * (m * 2 ^ k) := by ring
      rw [twice, Nat.log2_two_mul (by positivity), ih, add_assoc]

/-- Shifting zeros out loses nothing. -/
theorem shiftRight_exact (m k : Nat) :
    ExtendedMantissa.ofMantissaAndAccuracy (m * 2 ^ k) .exact >>> k = ⟨m, false, false⟩ := by
  change k.repeat ExtendedMantissa.shiftRightOne _ = _
  induction k generalizing m with
  | zero => simp [Nat.repeat, ExtendedMantissa.ofMantissaAndAccuracy]
  | succ k ih =>
      have twice : m * 2 ^ (k + 1) = 2 * m * 2 ^ k := by ring
      rw [Nat.repeat, twice, ih]
      simp [ExtendedMantissa.shiftRightOne]

/-- A mantissa of 53 bits is not rounded when only zeros follow it. -/
theorem shiftToTargetExponent_exact (positive : 0 < m) (full : m.log2 = 52) (k : Nat) (least : -1074 ≤ e + k) :
    shiftToTargetExponent Format.binary64 (m * 2 ^ k) e .exact = (⟨m, false, false⟩, e + k) := by
  have target : Format.binary64.targetExponent (totalExponent (m * 2 ^ k) e) = e + k := by
    rw [totalExponent, log2_mul_two_pow positive, full, Format.targetExponent]
    simp only [Format.mantissaBits, Format.minExponent]
    push_cast
    omega
  have amount : (e + k - e).toNat = k := by omega
  rw [shiftToTargetExponent, target, shiftToExponent, amount, shiftRight_exact]

theorem roundWithAccuracy_exact (s : Sign) (positive : 0 < m) (full : m.log2 = 52) (k : Nat)
    (least : -1074 ≤ e + k) :
    roundWithAccuracy Format.binary64 s (m * 2 ^ k) e .exact = .finite s m (e + k) positive := by
  have again := shiftToTargetExponent_exact (e := e + k) positive full 0 (by simpa using least)
  rw [pow_zero, mul_one, Nat.cast_zero, add_zero] at again
  rw [roundWithAccuracy, shiftToTargetExponent_exact positive full k least]
  simp only [ExtendedMantissa.roundedMantissa, ExtendedMantissa.accuracy, Accuracy.roundToNearestEven, again,
    positive.ne', dite_false]

/-- A number of at most 53 bits is a double. -/
theorem ofNat_exact {n : Nat} (positive : 0 < n) (fits : n < 2 ^ 53) :
    ∃ m, ∃ large : 0 < m, m.log2 = 52 ∧
      UnpackedFloat.ofNat Format.binary64 n = .finite .positive m (n.log2 - 52) large := by
  have bits : n.log2 ≤ 52 := Nat.lt_succ_iff.mp ((Nat.log2_lt positive.ne').mpr fits)
  have large : 0 < n * 2 ^ (52 - n.log2) := by positivity
  have full : (n * 2 ^ (52 - n.log2)).log2 = 52 := by
    rw [log2_mul_two_pow positive]
    omega
  have target : Format.binary64.targetExponent (totalExponent n 0) = n.log2 - 52 := by
    simp only [totalExponent, Format.targetExponent, Format.mantissaBits, Format.minExponent]
    push_cast
    omega
  have order : compare (n : Int) 0 = .gt := Int.compare_eq_gt.mpr (by omega)
  have amount : (0 - ((n.log2 : Int) - 52)).toNat = 52 - n.log2 := by omega
  have exponent : (0 : Int) - (52 - n.log2 : Nat) = n.log2 - 52 := by omega
  have rounded := roundWithAccuracy_exact (e := n.log2 - 52) .positive large full 0 (by omega)
  rw [pow_zero, mul_one] at rounded
  refine ⟨_, large, full, ?_⟩
  simp only [UnpackedFloat.ofNat, UnpackedFloat.ofInt, UnpackedFloat.normalize, order, UnpackedFloat.round,
    Int.toNat_natCast, target, decreaseExponent, amount, exponent, Nat.shiftLeft_eq, rounded, Nat.cast_zero,
    add_zero]

theorem unpackSign_packComponents (s : Sign) (e : BitVec 11) (f : BitVec 52) :
    unpackSign (packComponents Format.binary64 s e f) = s.toBitVec := by
  apply BitVec.eq_of_toNat_eq
  rw [toNat_unpackSign, toNat_packComponents]
  have := e.isLt
  have := f.isLt
  omega

/-- Normal doubles are kept in their bits. -/
theorem unpack_pack (s : Sign) (positive : 0 < m) (full : m.log2 = 52) (least : -1074 ≤ e)
    (greatest : e ≤ 971) :
    (Float.Model.pack (.finite s m e positive)).unpack = .finite s m e positive := by
  obtain ⟨lower, upper⟩ := (Nat.log2_eq_iff positive.ne').mp full
  have fits : (BitVec.ofNat 11 (e + 1075).toNat).toNat = (e + 1075).toNat := by
    rw [BitVec.toNat_ofNat]
    omega
  have packed := pack_finite s m e positive (e + 1075).toNat (by omega) (by omega)
  rw [if_pos full] at packed
  rw [Float.Model.unpack, Float.Model.pack]
  simp only [packed]
  have notAll : BitVec.ofNat 11 (e + 1075).toNat ≠ -1#11 := by
    intro all
    rw [all] at fits
    change 2047 = _ at fits
    omega
  have notZero : BitVec.ofNat 11 (e + 1075).toNat ≠ 0#11 := by
    intro zero
    rw [zero] at fits
    change 0 = _ at fits
    omega
  have whole : (1#1 ++ BitVec.ofNat 52 m).toNat = m := by
    rw [BitVec.toNat_append, ← Nat.shiftLeft_add_eq_or_of_lt (BitVec.ofNat 52 m).isLt, BitVec.toNat_ofNat]
    simp [Nat.shiftLeft_eq]
    omega
  have sign : Sign.ofBitVec s.toBitVec = s := by cases s <;> rfl
  have exponent : ((e + 1075).toNat : Int) - ((Format.binary64.exponentBias : Int) + (52 : Nat)) = e := by
    rw [show Format.binary64.exponentBias = 1023 from rfl]
    omega
  simp only [UnpackedFloat.unpack, unpackExponent_packComponents, unpackMantissa_packComponents,
    unpackSign_packComponents, notAll, notZero, if_false, whole, fits, sign, exponent]

end Exact
end Binary

namespace Generator

section Samples

open Float.Model Float.Model.UnpackedFloat

/-- The least normal double, `2 ^ -1022`. -/
def leastNormal : Float := Float.ofBits 0x0010000000000000

example : leastNormal.toBits = (2.2250738585072014e-308 : Float).toBits := by decide +kernel

/-- The upper bits of the state are scaled exactly. -/
theorem unpack_unit {g : Generator} (positive : 0 < g.bits.toNat) :
    ∃ m large, g.unit.toModel.unpack = .finite .positive m (g.bits.toNat.log2 - 105) large := by
  have fits : g.bits.toNat < 2 ^ 53 := by
    have := g.state.toNat_lt
    rw [bits, toNat_shiftRight]
    omega
  obtain ⟨m, large, full, exact⟩ := Binary.ofNat_exact positive fits
  have bits : g.bits.toNat.log2 ≤ 52 := Nat.lt_succ_iff.mp ((Nat.log2_lt positive.ne').mpr fits)
  have scale : (1.0 / 9007199254740992.0 : Float).toModel.unpack =
      .finite .positive (2 ^ 52) (-105) (by decide) := rfl
  have word : g.bits.toFloat.toModel.unpack = .finite .positive m (g.bits.toNat.log2 - 52) large := by
    change (Float.Model.pack (UnpackedFloat.ofNat Format.binary64 g.bits.toNat)).unpack = _
    rw [exact, Binary.unpack_pack .positive large full (by omega) (by omega)]
  have product := Binary.roundWithAccuracy_exact (e := g.bits.toNat.log2 - 52 + -105) .positive large full 52
    (by omega)
  have exponent : (g.bits.toNat.log2 : Int) - 52 + -105 + (52 : Nat) = g.bits.toNat.log2 - 105 := by omega
  rw [exponent] at product
  refine ⟨m, large, ?_⟩
  change (Float.Model.pack (UnpackedFloat.mul Format.binary64 g.bits.toFloat.toModel.unpack
    (1.0 / 9007199254740992.0 : Float).toModel.unpack)).unpack = _
  rw [word, scale]
  change (Float.Model.pack (roundWithAccuracy _ .positive _ _ _)).unpack = _
  rw [product, Binary.unpack_pack .positive large full (by omega) (by omega)]

/-- Every positive sample is far above the least normal double. -/
theorem unit_le_iff (g : Generator) : g.unit ≤ leastNormal ↔ g.bits = 0 := by
  have least : leastNormal.toModel.unpack = .finite .positive (2 ^ 52) (-1074) (by decide) := rfl
  constructor
  · intro small
    by_contra nonzero
    have positive : 0 < g.bits.toNat := Nat.pos_of_ne_zero fun zero => nonzero (UInt64.toNat_inj.mp zero)
    obtain ⟨m, large, unpacked⟩ := unpack_unit positive
    have above : compare ((g.bits.toNat.log2 : Int) - 105) (-1074) = .gt := Int.compare_eq_gt.mpr (by omega)
    have ordered : g.unit.toModel.unpack.le leastNormal.toModel.unpack = true := of_decide_eq_true small
    rw [unpacked, least] at ordered
    simp [UnpackedFloat.le, UnpackedFloat.compare, above] at ordered
  · intro zero
    rw [unit, zero]
    decide +kernel

end Samples

/-- The runs of the rejection loop: uniform samples are drawn until one is above the least normal double. A run
has a number of draws and leaves a generator. -/
inductive Accepts : Generator → Nat → Generator → Prop where
  | accepted {g : Generator} (above : ¬g.uniform.1 ≤ leastNormal) : Accepts g 1 g.uniform.2
  | rejected {g g' : Generator} {draws : Nat} (small : g.uniform.1 ≤ leastNormal)
      (rest : Accepts g.uniform.2 draws g') : Accepts g (draws + 1) g'

theorem uniform_le_iff (g : Generator) : g.uniform.1 ≤ leastNormal ↔ g.uniform.2.state >>> 11 = 0 :=
  g.step.unit_le_iff

theorem Accepts.unique {g g₁ g₂ : Generator} {m n : Nat} (first : Accepts g m g₁) (second : Accepts g n g₂) :
    m = n ∧ g₁ = g₂ := by
  induction first generalizing n with
  | accepted above =>
      cases second with
      | accepted => exact ⟨rfl, rfl⟩
      | rejected small => exact absurd small above
  | rejected small rest ih =>
      cases second with
      | accepted above => exact absurd small above
      | rejected _ rest' =>
          obtain ⟨rfl, rfl⟩ := ih rest'
          exact ⟨rfl, rfl⟩

theorem pending_le_two (state : UInt64) : pending state ≤ 2 := by
  unfold pending
  split
  · exact le_rfl
  · split <;> omega

/-- The loop ends where the sample is positive, after one draw for each small state ahead and one more. -/
theorem accepts_toPositive {g h : Generator} (next : g.step = h) :
    ∃ draws ≤ pending h.state + 1, Accepts g draws h.toPositive := by
  -- The generator that a draw leaves is the one that the next draw starts from.
  induction h using toPositive.induct generalizing g with
  | case1 h zero ih =>
      obtain ⟨draws, bound, rest⟩ := ih rfl
      subst next
      have fewer : pending g.step.step.state < pending g.step.state := pending_advance zero
      rw [toPositive, if_pos zero]
      exact ⟨draws + 1, by omega, .rejected (g.uniform_le_iff.mpr zero) rest⟩
  | case2 h nonzero =>
      subst next
      rw [toPositive, if_neg nonzero]
      exact ⟨1, by omega, .accepted fun small => nonzero (g.uniform_le_iff.mp small)⟩

theorem exists_accepts (g : Generator) : ∃ draws ≤ 3, Accepts g draws g.step.toPositive := by
  obtain ⟨draws, bound, run⟩ := accepts_toPositive (rfl : g.step = g.step)
  have := pending_le_two g.step.state
  exact ⟨draws, by omega, run⟩

/-- The runs of one normal sample: the one that was kept, or the first of a new pair. A pair takes one more draw
than the rejection loop. -/
inductive Samples : Generator → Nat → Float × Generator → Prop where
  | kept {g : Generator} {x : Float} (spare : g.spare = some x) : Samples g 0 (x, { g with spare := none })
  | paired {g g' : Generator} {draws : Nat} (empty : g.spare = none) (loop : Accepts g draws g') :
      Samples g (draws + 1) g'.pair

/-- The runs of a list of normal samples. -/
inductive Draws : Nat → Generator → Nat → List Float × Generator → Prop where
  | nil {g : Generator} : Draws 0 g 0 ([], g)
  | cons {n m k : Nat} {g g₁ g₂ : Generator} {x : Float} {xs : List Float} (head : Samples g m (x, g₁))
      (tail : Draws n g₁ k (xs, g₂)) : Draws (n + 1) g (m + k) (x :: xs, g₂)

/-- The runs of a matrix of normal samples: no draw for a negative dimension, and one sample for each entry. -/
inductive Fills (rows cols : Int64) (g : Generator) : Nat → Except Fault (Matrix Float × Generator) → Prop where
  | rows {fault : Fault} (refused : Matrix.dimension rows = .error fault) : Fills rows cols g 0 (.error fault)
  | cols {r : Nat} {fault : Fault} (height : Matrix.dimension rows = .ok r)
      (refused : Matrix.dimension cols = .error fault) : Fills rows cols g 0 (.error fault)
  | entries {r c draws : Nat} {xs : List Float} {g' : Generator} (height : Matrix.dimension rows = .ok r)
      (width : Matrix.dimension cols = .ok c) (run : Draws (r * c) g draws (xs, g')) :
      Fills rows cols g draws (.ok (Matrix.build r c fun i j => xs.toArray.getD (i * c + j) 0.0, g'))

theorem isSome_spare_normal (g : Generator) : g.normal.2.spare.isSome = !g.spare.isSome := by
  cases spare : g.spare with
  | some x => simp [normal, spare]
  | none => simp [normal, spare, pair]

/-- A sample that was kept costs nothing, a new pair at most four draws. -/
theorem samples_normal (g : Generator) :
    ∃ draws ≤ (if g.spare.isSome then 0 else 4), Samples g draws g.normal := by
  cases spare : g.spare with
  | some x =>
      refine ⟨0, Nat.zero_le _, ?_⟩
      rw [normal, spare]
      exact .kept spare
  | none =>
      obtain ⟨draws, bound, loop⟩ := g.exists_accepts
      refine ⟨draws + 1, ?_, ?_⟩
      · simpa using Nat.succ_le_succ bound
      · rw [normal, spare]
        exact .paired spare loop

/-- Samples come in pairs, so every second one is free. -/
theorem draws_draw (n : Nat) (g : Generator) :
    ∃ draws ≤ 4 * ((n + if g.spare.isSome then 0 else 1) / 2), Draws n g draws (draw normal n g) := by
  induction n generalizing g with
  | zero => exact ⟨0, Nat.zero_le _, .nil⟩
  | succ n ih =>
      obtain ⟨m, bound, head⟩ := g.samples_normal
      obtain ⟨k, rest, tail⟩ := ih g.normal.2
      refine ⟨m + k, ?_, .cons head tail⟩
      rw [isSome_spare_normal] at rest
      cases spare : g.spare.isSome with
      | true =>
          simp only [spare, Bool.not_true, if_true, Bool.false_eq_true, if_false] at bound rest ⊢
          omega
      | false =>
          simp only [spare, Bool.not_false, if_true, Bool.false_eq_true, if_false] at bound rest ⊢
          omega

theorem toNat_of_dimension {n : Int64} {k : Nat} (accepted : Matrix.dimension n = .ok k) :
    n.toInt.toNat = k := by
  unfold Matrix.dimension at accepted
  split at accepted
  · exact Except.ok.inj accepted
  · exact nomatch accepted

theorem fills_matrix (rows cols : Int64) (g : Generator) :
    ∃ draws ≤ 4 * ((rows.toInt.toNat * cols.toInt.toNat + 1) / 2),
      Fills rows cols g draws (g.matrix normal rows cols) := by
  rw [matrix, Sampling.matrix]
  cases height : Matrix.dimension rows with
  | error fault => exact ⟨0, Nat.zero_le _, .rows height⟩
  | ok r =>
      cases width : Matrix.dimension cols with
      | error fault => exact ⟨0, Nat.zero_le _, .cols height width⟩
      | ok c =>
          obtain ⟨draws, bound, run⟩ := draws_draw (r * c) g
          refine ⟨draws, ?_, .entries height width run⟩
          rw [toNat_of_dimension height, toNat_of_dimension width]
          exact bound.trans (Nat.mul_le_mul_left 4 (by split <;> omega))

/-- Normal sampling ends from every state. The rejection loop has exactly one run, of at most three draws, where
a draw is rejected exactly when it leaves a state without upper bits, and takes the state `s` to
`6364136223846793005 * s + 1` modulo `2 ^ 64`. So a matrix of normal samples is finished, or refused for a
negative dimension, after at most four draws for every two entries. -/
theorem normal_terminates (g : Generator) :
    (∃ draws ≤ 3, ∀ n g', Accepts g n g' ↔ n = draws ∧ g' = g.step.toPositive) ∧
      (g.uniform.1 ≤ leastNormal ↔ g.uniform.2.state >>> 11 = 0) ∧
      g.uniform.2.state.toNat = (6364136223846793005 * g.state.toNat + 1) % 2 ^ 64 ∧
      ∀ rows cols, ∃ draws ≤ 4 * ((rows.toInt.toNat * cols.toInt.toNat + 1) / 2),
        Fills rows cols g draws (g.matrix normal rows cols) := by
  refine ⟨?_, g.uniform_le_iff, toNat_advance g.state, fun rows cols => g.fills_matrix rows cols⟩
  obtain ⟨draws, bound, run⟩ := g.exists_accepts
  refine ⟨draws, bound, fun n g' => ⟨fun other => other.unique run, ?_⟩⟩
  rintro ⟨rfl, rfl⟩
  exact run

/-- From the state before zero all three draws are needed: zero and one are rejected. -/
theorem accepts_before_zero :
    Accepts ⟨4568919932995229531, 0, none⟩ 3 ⟨6364136223846793006, 0, none⟩ ∧
      ¬Accepts ⟨4568919932995229531, 0, none⟩ 2 ⟨6364136223846793006, 0, none⟩ ∧
      (Generator.mk 4568919932995229531 0 none).step.toPositive = ⟨6364136223846793006, 0, none⟩ := by
  obtain ⟨draws, -, only⟩ := (normal_terminates ⟨4568919932995229531, 0, none⟩).1
  have run : Accepts ⟨4568919932995229531, 0, none⟩ 3 ⟨6364136223846793006, 0, none⟩ :=
    .rejected ((uniform_le_iff _).mpr (by decide)) <| .rejected ((uniform_le_iff _).mpr (by decide)) <|
      .accepted fun small => absurd ((uniform_le_iff _).mp small) (by decide)
  obtain ⟨three, last⟩ := (only _ _).mp run
  refine ⟨run, fun fewer => ?_, last.symm⟩
  have two : 2 = draws := ((only _ _).mp fewer).1
  omega

end Generator
end MatrixCode
