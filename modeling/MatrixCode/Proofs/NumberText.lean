import MatrixCode.Machine.Fold
import MatrixCode.Proofs.Decimal

/-!
Numbers as text. The text of a word reads back as that word and, as a double, as the
double nearest to it; the text of a finite double reads back as that double. Both hold
inside the name of a literal, so a variable that is folded into a number has the value
of the number.
-/

namespace MatrixCode
namespace Reader

theorem digitsFrom_eq (value : Nat) (cs : List Char) :
    digitsFrom value cs = Nat.ofDigitChars 10 cs value := rfl

@[simp] theorem digitsValue_repr (n : Nat) : digitsValue (Nat.repr n).toList = n := by
  simp [digitsValue, digitsFrom_eq, Nat.toList_repr]

theorem isDigit_of_mem_repr {n : Nat} {c : Char} (hc : c ∈ (Nat.repr n).toList) : c.isDigit := by
  rw [Nat.toList_repr] at hc
  exact Nat.isDigit_of_mem_toDigits (by decide) (by decide) hc

theorem repr_ne_nil (n : Nat) : (Nat.repr n).toList ≠ [] := by
  rw [Nat.toList_repr]
  exact Nat.toDigits_ne_nil

theorem natural?_repr (n : Nat) : natural? (Nat.repr n).toList = some n := by
  simp only [natural?, digitsValue_repr]
  rw [if_pos ⟨repr_ne_nil n, List.all_eq_true.mpr fun c => isDigit_of_mem_repr⟩]

theorem natural?_eq_none {cs : List Char} {c : Char} (hc : c ∈ cs) (other : ¬c.isDigit) :
    natural? cs = none := by
  rw [natural?, if_neg]
  rintro ⟨-, digits⟩
  exact other (List.all_eq_true.mp digits c hc)

theorem sign_of_isDigit {cs : List Char} (h : ∀ c ∈ cs.head?, c.isDigit) : sign cs = (false, cs) := by
  unfold sign
  split
  · next cs => exact absurd (h '-' (by simp)) (by decide)
  · next cs => exact absurd (h '+' (by simp)) (by decide)
  · rfl

theorem integer?_toString (z : Int) : integer? (toString z).toList = some z := by
  cases z with
  | ofNat n =>
      have plain : sign (Nat.repr n).toList = (false, (Nat.repr n).toList) :=
        sign_of_isDigit fun c hc => isDigit_of_mem_repr (List.mem_of_mem_head? hc)
      change integer? (Nat.repr n).toList = some (n : Int)
      simp only [integer?, plain, natural?_repr]
      rfl
  | negSucc n =>
      have minus : (toString (Int.negSucc n)).toList = '-' :: (Nat.repr (n + 1)).toList := by
        change ("-" ++ Nat.repr (n + 1)).toList = _
        simp
      simp only [minus, integer?, sign, natural?_repr]
      rfl

theorem word?_text (x : Int64) : word? (Word.text x).toList = some x := by
  simp only [word?, Word.text, integer?_toString, Option.bind_some, Word.ofInt?]
  rw [if_pos ⟨x.minValue_le_toInt, x.toInt_le⟩, Int64.ofInt_toInt]

/-- Reading digits stops where they end. -/
theorem span_isDigit {ws : List Char} (rest : List Char) (hw : ∀ c ∈ ws, c.isDigit)
    (hr : ∀ c ∈ rest.head?, ¬c.isDigit) :
    (ws ++ rest).takeWhile Char.isDigit = ws ∧ (ws ++ rest).dropWhile Char.isDigit = rest := by
  rw [List.takeWhile_append_of_pos hw, List.dropWhile_append_of_pos hw]
  cases rest with
  | nil => simp
  | cons c rest =>
      have : c.isDigit = false := by simpa using hr c (by simp)
      simp [this]

theorem decimal?_point (negative : Bool) (ws fs es : List Char) (hne : ws ≠ [])
    (hw : ∀ c ∈ ws, c.isDigit) (hf : ∀ c ∈ fs, c.isDigit) (he : ∀ c ∈ es.head?, ¬c.isDigit) :
    decimal? negative (ws ++ '.' :: (fs ++ es)) = (exponent? es).map fun e =>
      Binary.ofScientific negative (digitsFrom (digitsValue ws) fs) (e - fs.length) := by
  obtain ⟨whole, rest⟩ := span_isDigit ('.' :: (fs ++ es)) hw (by simp)
  obtain ⟨fraction, rest'⟩ := span_isDigit es hf he
  simp only [decimal?, whole, rest, fraction, rest', hne, false_and, if_false]

theorem decimal?_whole (negative : Bool) {ws : List Char} (es : List Char) (hne : ws ≠ [])
    (hw : ∀ c ∈ ws, c.isDigit) :
    decimal? negative (ws ++ 'e' :: es) = (exponent? ('e' :: es)).map fun e =>
      Binary.ofScientific negative (digitsValue ws) e := by
  obtain ⟨whole, rest⟩ := span_isDigit ('e' :: es) hw (by simp)
  simp [decimal?, whole, rest, hne, digitsFrom_eq]

end Reader

namespace Binary

theorem zero_lt_of_rounds {m : Nat} {q : Int} {v : ℚ} (hm : 0 < m) (r : Rounds m q v) : 0 < v := by
  obtain ⟨lower, -, -⟩ := r.nearby hm
  have hm' : (1 : ℚ) ≤ m := by exact_mod_cast hm
  have : 0 < v / 2 ^ q := by linarith
  exact (div_pos_iff_of_pos_right (by positivity)).mp this

/-- Where the numbers lie that are read as positive doubles. -/
theorem range_of_rounds {m : Nat} {q : Int} {v : ℚ} (c : Canonical m q) (hm : 0 < m)
    (r : Rounds m q v) : (2 : ℚ) ^ (-1075 : ℤ) ≤ v ∧ v < 2 ^ (1024 : ℤ) := by
  obtain ⟨lower, upper, -⟩ := r.nearby hm
  have hm' : (1 : ℚ) ≤ m := by exact_mod_cast hm
  have fits : (m : ℚ) + 1 ≤ 2 ^ 53 := by exact_mod_cast c.fits
  have unit : (0 : ℚ) < 2 ^ q := by positivity
  rw [le_div_iff₀ unit] at lower
  rw [div_le_iff₀ unit] at upper
  constructor
  · calc (2 : ℚ) ^ (-1075 : ℤ) = 1 / 2 * 2 ^ leastExponent := by
          rw [show (-1075 : ℤ) = -1 + leastExponent by decide, zpow_add₀ two_ne_zero]
          norm_num
      _ ≤ (m - 1 / 2) * 2 ^ q :=
          mul_le_mul (by linarith) (zpow_le_zpow_right₀ one_le_two c.least) (by positivity)
            (by linarith)
      _ ≤ v := lower
  · calc v ≤ (m + 1 / 2) * 2 ^ q := upper
      _ < 2 ^ 53 * 2 ^ q := by
          gcongr
          linarith
      _ ≤ 2 ^ 53 * 2 ^ greatestExponent :=
          mul_le_mul_of_nonneg_left (zpow_le_zpow_right₀ one_le_two c.greatest) (by positivity)
      _ = 2 ^ (1024 : ℤ) := by
          rw [show (1024 : ℤ) = 53 + greatestExponent by decide, zpow_add₀ two_ne_zero]
          norm_num

theorem two_zpow_lt_ten_zpow : (2 : ℚ) ^ (1024 : ℤ) < 10 ^ (311 : ℤ) := by
  have : 2 ^ 1024 < 10 ^ 311 := by decide +kernel
  exact_mod_cast this

theorem ten_zpow_lt_two_zpow : (10 : ℚ) ^ (-331 : ℤ) < 2 ^ (-1075 : ℤ) := by
  have : 2 ^ 1075 < 10 ^ 331 := by decide +kernel
  rw [zpow_neg, zpow_neg, inv_lt_inv₀ (by positivity) (by positivity)]
  exact_mod_cast this

theorem lt_ten_zpow_log2 (n : Nat) : (n : ℚ) < 10 ^ ((n.log2 / 3 + 1 : Nat) : ℤ) := by
  have : n < 10 ^ (n.log2 / 3 + 1) :=
    calc n < 2 ^ (n.log2 + 1) := Nat.lt_log2_self
      _ ≤ 2 ^ (3 * (n.log2 / 3 + 1)) := Nat.pow_le_pow_right two_pos (by omega)
      _ = 8 ^ (n.log2 / 3 + 1) := by rw [Nat.pow_mul]
      _ ≤ 10 ^ (n.log2 / 3 + 1) := Nat.pow_le_pow_left (by decide) _
  exact_mod_cast this

/-- A decimal number in the rounding interval of a double is read as that double. -/
theorem ofScientific_of_rounds {negative : Bool} {m n : Nat} {q power : Int} (c : Canonical m q)
    (hm : 0 < m) (r : Rounds m q (n * 10 ^ power)) :
    ofScientific negative n power = ofMagnitude negative (magnitude m q) := by
  have pos := zero_lt_of_rounds hm r
  have hn : n ≠ 0 := by
    rintro rfl
    simp at pos
  obtain ⟨lower, upper⟩ := range_of_rounds c hm r
  have notHuge : power < 311 := by
    have : (1 : ℚ) ≤ n := by exact_mod_cast Nat.pos_of_ne_zero hn
    have : (10 : ℚ) ^ power ≤ n * 10 ^ power := le_mul_of_one_le_left (by positivity) this
    exact (zpow_lt_zpow_iff_right₀ (by norm_num)).mp
      ((this.trans_lt upper).trans two_zpow_lt_ten_zpow)
  have notTiny : -331 < ((n.log2 / 3 + 1 : Nat) : ℤ) + power := by
    have : (n : ℚ) * 10 ^ power < 10 ^ (((n.log2 / 3 + 1 : Nat) : ℤ) + power) := by
      rw [zpow_add₀ (by norm_num)]
      exact mul_lt_mul_of_pos_right (lt_ten_zpow_log2 n) (by positivity)
    exact (zpow_lt_zpow_iff_right₀ (by norm_num)).mp
      (ten_zpow_lt_two_zpow.trans (lower.trans_lt this))
  have ratio := scaleDown_ratio (by decide : 0 < 10) n 1 (-power)
  simp only [ofScientific, hn, if_false]
  rw [if_neg (by omega), if_neg (by omega)]
  apply nearest_of_rounds (scaleDown_pos (by decide) one_pos n (-power)) c hm
  rw [ratio]
  simpa using r

end Binary

namespace Decimal

theorem isDigit_of_mem_digits {d : Decimal} {c : Char} (hc : c ∈ d.digits) : c.isDigit :=
  Reader.isDigit_of_mem_repr hc

theorem isDigit_of_mem_zeros {count : Nat} {c : Char} (hc : c ∈ zeros count) : c.isDigit := by
  rw [List.eq_of_mem_replicate hc]
  decide

theorem digitsFrom_zeros (value count : Nat) :
    Reader.digitsFrom value (zeros count) = value * 10 ^ count := by
  rw [Reader.digitsFrom_eq, zeros, Nat.ofDigitChars_replicate_zero, Nat.mul_comm]

theorem digitsFrom_append (value : Nat) (cs ds : List Char) :
    Reader.digitsFrom value (cs ++ ds) = Reader.digitsFrom (Reader.digitsFrom value cs) ds := by
  simp only [Reader.digitsFrom_eq, Nat.ofDigitChars_append]

theorem digitsFrom_zero_digits (d : Decimal) : Reader.digitsFrom 0 d.digits = d.coefficient :=
  Reader.digitsValue_repr d.coefficient

theorem decimal?_positional (d : Decimal) (negative : Bool) :
    ∃ (n : Nat) (power : Int), Reader.decimal? negative (d.positional true) =
      some (Binary.ofScientific negative n power) ∧ (n : ℚ) * 10 ^ power = d.value := by
  have digit (c : Char) (hc : c ∈ d.digits) : c.isDigit := isDigit_of_mem_digits hc
  have read (ws fs : List Char) (hne : ws ≠ []) (hw : ∀ c ∈ ws, c.isDigit)
      (hf : ∀ c ∈ fs, c.isDigit) : Reader.decimal? negative (ws ++ '.' :: fs) =
        some (Binary.ofScientific negative (Reader.digitsFrom 0 (ws ++ fs)) (0 - fs.length)) := by
    have := Reader.decimal?_point negative ws fs [] hne hw hf (by simp)
    rw [digitsFrom_append]
    simpa [Reader.exponent?, Reader.digitsValue] using this
  simp only [positional]
  split
  · next small =>
      have fraction (c : Char) (hc : c ∈ zeros (-d.point).toNat ++ d.digits) : c.isDigit :=
        (List.mem_append.mp hc).elim isDigit_of_mem_zeros (digit c)
      refine ⟨_, _, read ['0'] _ (by simp) (by simp) fraction, ?_⟩
      rw [digitsFrom_append, digitsFrom_append, digitsFrom_zeros,
        show Reader.digitsFrom 0 ['0'] = 0 by decide, Nat.zero_mul, digitsFrom_zero_digits, value,
        List.length_append, zeros, List.length_replicate]
      congr 2
      omega
  · split
    · next whole =>
        have digits (c : Char) (hc : c ∈ d.digits ++ zeros (d.point.toNat - d.digits.length)) :
            c.isDigit :=
          (List.mem_append.mp hc).elim (digit c) isDigit_of_mem_zeros
        refine ⟨_, _, read _ ['0'] ?_ digits (by simp), ?_⟩
        · simp [Decimal.digits]
        rw [digitsFrom_append, digitsFrom_append, digitsFrom_zero_digits, digitsFrom_zeros,
          show ∀ n, Reader.digitsFrom n ['0'] = 10 * n by intro n; rfl, value,
          show d.point - d.digits.length = (d.point.toNat - d.digits.length : Nat) by omega]
        rw [zpow_natCast]
        push_cast
        norm_num
        ring
    · next part =>
        refine ⟨_, _, read _ _ ?_ (fun c hc => digit c (List.mem_of_mem_take hc))
          fun c hc => digit c (List.mem_of_mem_drop hc), ?_⟩
        · simp [Decimal.digits]
          omega
        rw [List.take_append_drop, digitsFrom_zero_digits, value, List.length_drop]
        congr 2
        omega

theorem decimal?_scientific (d : Decimal) (negative : Bool) :
    ∃ (n : Nat) (power : Int), Reader.decimal? negative d.scientific =
      some (Binary.ofScientific negative n power) ∧ (n : ℚ) * 10 ^ power = d.value := by
  have digit (c : Char) (hc : c ∈ d.digits) : c.isDigit := isDigit_of_mem_digits hc
  have nonempty : d.digits ≠ [] := Reader.repr_ne_nil d.coefficient
  have coefficient := digitsFrom_zero_digits d
  have exponent : Reader.exponent? ('e' :: (toString (d.point - 1)).toList) = some (d.point - 1) := by
    simp only [Reader.exponent?, true_or, if_true, Reader.integer?_toString]
  simp only [scientific, value]
  match hd : d.digits with
  | [] => exact absurd hd nonempty
  | [c] =>
      rw [hd] at digit coefficient
      refine ⟨Reader.digitsValue [c], d.point - 1, ?_, ?_⟩
      · change Reader.decimal? negative ([c] ++ 'e' :: _) = _
        rw [Reader.decimal?_whole negative _ (by simp) digit, exponent]
        rfl
      · simp [Reader.digitsValue, coefficient]
  | c :: c' :: rest =>
      rw [hd] at digit coefficient
      refine ⟨Reader.digitsFrom (Reader.digitsValue [c]) (c' :: rest),
        d.point - 1 - (c' :: rest).length, ?_, ?_⟩
      · have := Reader.decimal?_point negative [c] (c' :: rest)
          ('e' :: (toString (d.point - 1)).toList) (by simp) (fun x hx => digit x (by simp_all))
          (fun x hx => digit x (by simp_all)) (by simp)
        rw [exponent] at this
        exact this
      · rw [Reader.digitsValue, ← digitsFrom_append, List.singleton_append, coefficient]
        congr 2
        simp
        omega

/-- The characters of numbers. -/
def IsNumeral (c : Char) : Prop := c.isDigit ∨ c = '.' ∨ c = '-' ∨ c = 'e'

/-- A text that starts with a digit: digits and points, then an exponent if there is one. -/
structure Numeric (text : List Char) : Prop where
  head : ∃ c rest, text = c :: rest ∧ c.isDigit
  parts : ∃ mantissa exponent, text = mantissa ++ exponent ∧
    (∀ c ∈ mantissa, c.isDigit ∨ c = '.') ∧
    (exponent = [] ∨ ∃ z : Int, exponent = 'e' :: (toString z).toList)

theorem mem_toString_int {z : Int} {c : Char} (hc : c ∈ (toString z).toList) :
    c.isDigit ∨ c = '-' := by
  cases z with
  | ofNat n => exact .inl (Reader.isDigit_of_mem_repr hc)
  | negSucc n =>
      change c ∈ ("-" ++ Nat.repr (n + 1)).toList at hc
      simp only [String.toList_append, List.mem_append] at hc
      exact hc.symm.imp Reader.isDigit_of_mem_repr (by simp)

theorem Numeric.chars {text : List Char} (h : Numeric text) {c : Char} (hc : c ∈ text) :
    IsNumeral c := by
  obtain ⟨mantissa, exponent, rfl, digits, last⟩ := h.parts
  rcases List.mem_append.mp hc with hc | hc
  · exact (digits c hc).imp_right .inl
  · rcases last with rfl | ⟨z, rfl⟩
    · cases hc
    · rcases List.mem_cons.mp hc with rfl | hc
      · exact .inr (.inr (.inr rfl))
      · exact (mem_toString_int hc).imp_right fun minus => .inr (.inl minus)

/-- Numbers without an exponent. -/
theorem numeric_of_digits {text : List Char} (head : ∃ c rest, text = c :: rest ∧ c.isDigit)
    (digits : ∀ c ∈ text, c.isDigit ∨ c = '.') : Numeric text :=
  ⟨head, text, [], (List.append_nil text).symm, digits, .inl rfl⟩

theorem exists_digit (d : Decimal) : ∃ c rest, d.digits = c :: rest ∧ c.isDigit := by
  obtain ⟨c, rest, h⟩ := List.exists_cons_of_ne_nil (Reader.repr_ne_nil d.coefficient)
  exact ⟨c, rest, h, isDigit_of_mem_digits (d := d) (by rw [Decimal.digits, h]; simp)⟩

theorem numeric_positional (d : Decimal) : Numeric (d.positional true) := by
  have digit (x : Char) (hx : x ∈ d.digits) : x.isDigit := isDigit_of_mem_digits hx
  obtain ⟨c, rest, hd, hc⟩ := d.exists_digit
  simp only [positional]
  split
  · refine numeric_of_digits ⟨_, _, rfl, by decide⟩ fun x hx => ?_
    simp only [List.mem_cons, List.mem_append] at hx
    rcases hx with rfl | rfl | hx | hx
    · exact .inl (by decide)
    · exact .inr rfl
    · exact .inl (isDigit_of_mem_zeros hx)
    · exact .inl (digit x hx)
  · next positive =>
      split
      · refine numeric_of_digits (by rw [hd]; exact ⟨c, _, rfl, hc⟩) fun x hx => ?_
        simp only [if_true, List.mem_cons, List.mem_append, List.not_mem_nil, or_false] at hx
        rcases hx with (hx | hx) | rfl | rfl
        · exact .inl (digit x hx)
        · exact .inl (isDigit_of_mem_zeros hx)
        · exact .inr rfl
        · exact .inl (by decide)
      · refine numeric_of_digits ?_ fun x hx => ?_
        · obtain ⟨k, hk⟩ : ∃ k, d.point.toNat = k + 1 := ⟨d.point.toNat - 1, by omega⟩
          rw [hd, hk]
          exact ⟨c, _, rfl, hc⟩
        · simp only [List.mem_cons, List.mem_append] at hx
          rcases hx with hx | rfl | hx
          · exact .inl (digit x (List.mem_of_mem_take hx))
          · exact .inr rfl
          · exact .inl (digit x (List.mem_of_mem_drop hx))

theorem numeric_scientific (d : Decimal) : Numeric d.scientific := by
  obtain ⟨c, rest, hd, hc⟩ := d.exists_digit
  have digit (x : Char) (hx : x ∈ c :: rest) : x.isDigit := isDigit_of_mem_digits (hd ▸ hx)
  simp only [scientific, hd]
  cases rest with
  | nil => exact ⟨⟨c, _, rfl, hc⟩, [c], _, rfl, fun x hx => .inl (digit x hx), .inr ⟨_, rfl⟩⟩
  | cons c' rest =>
      refine ⟨⟨c, _, rfl, hc⟩, c :: '.' :: c' :: rest, _, rfl, fun x hx => ?_, .inr ⟨_, rfl⟩⟩
      rcases List.mem_cons.mp hx with rfl | hx
      · exact .inl hc
      · rcases List.mem_cons.mp hx with rfl | hx
        · exact .inr rfl
        · exact .inl (digit x (List.mem_cons_of_mem c hx))

theorem natural?_positional (d : Decimal) : Reader.natural? (d.positional true) = none := by
  refine Reader.natural?_eq_none (c := '.') ?_ (by decide)
  simp only [positional]
  split
  · simp
  · split <;> simp

theorem natural?_scientific (d : Decimal) : Reader.natural? d.scientific = none :=
  Reader.natural?_eq_none (c := 'e') (by simp [scientific]) (by decide)

end Decimal

namespace NumberText

theorem double?_signed (negative : Bool) {text : List Char} (hn : Decimal.Numeric text) :
    Reader.double? (signed negative text).toList = Reader.decimal? negative text := by
  obtain ⟨⟨c, rest, rfl, digit⟩, -⟩ := hn
  have sign : Reader.sign (signed negative (c :: rest)).toList = (negative, c :: rest) := by
    cases negative with
    | false =>
        have head : ∀ k ∈ (c :: rest).head?, k.isDigit := by simpa using digit
        simpa [signed] using Reader.sign_of_isDigit head
    | true => simp [signed, Reader.sign]
  have word (w : String) (hw : ∀ k ∈ w.toList.head?, ¬k.isDigit) :
      String.ofList ((c :: rest).map Char.toLower) ≠ w := by
    rintro rfl
    have lower : c.toLower = c := by
      simp only [Char.isDigit, Bool.and_eq_true, decide_eq_true_eq] at digit
      simp only [Char.toLower]
      rw [dif_neg]
      simp only [UInt32.le_iff_toNat_le] at *
      have : '9'.val.toNat = 57 := rfl
      have : 'A'.val.toNat = 65 := rfl
      omega
    exact hw c (by simp [lower]) digit
  simp only [Reader.double?, sign]
  split
  · next h => exact absurd h (word "inf" (by simp))
  · next h => exact absurd h (word "infinity" (by simp))
  · next h => exact absurd h (word "nan" (by simp))
  · rfl

/-- The text of a finite double is a numeric text that is no integer, with an optional sign. Under
either sign it is read as a double of the same magnitude. -/
theorem literal_of_decode {x : Float} {negative : Bool} {m : Nat} {q : Int}
    (decoded : Binary.decode x = .finite negative m q) :
    ∃ text, literal x = signed negative text ∧ Decimal.Numeric text ∧
      Reader.natural? text = none ∧
      ∀ sign, Reader.decimal? sign text = some (Binary.ofMagnitude sign (Binary.magnitude m q)) := by
  have canonical := Binary.canonical_of_decode decoded
  simp only [literal, ofFloat, decoded]
  refine ⟨_, rfl, ?_⟩
  split
  · next zero =>
      subst zero
      refine ⟨Decimal.numeric_of_digits ⟨_, _, rfl, by decide⟩ (by simp), by decide, fun sign => ?_⟩
      cases sign <;> rfl
  · next nonzero =>
      have positive : 0 < m := Nat.pos_of_ne_zero nonzero
      have rounds := Decimal.shortest_rounds canonical positive
      split
      · refine ⟨Decimal.numeric_positional _, Decimal.natural?_positional _, fun sign => ?_⟩
        obtain ⟨n, power, read, value⟩ := (Decimal.shortest m q).decimal?_positional sign
        rw [read, Binary.ofScientific_of_rounds canonical positive (value ▸ rounds)]
      · refine ⟨Decimal.numeric_scientific _, Decimal.natural?_scientific _, fun sign => ?_⟩
        obtain ⟨n, power, read, value⟩ := (Decimal.shortest m q).decimal?_scientific sign
        rw [read, Binary.ofScientific_of_rounds canonical positive (value ▸ rounds)]

/-- The text of a finite double is a numeric text with an optional sign, and it is read as
the double. -/
theorem literal_spec {x : Float} (hx : x.isFinite) :
    ∃ negative text, literal x = signed negative text ∧ Decimal.Numeric text ∧
      Reader.decimal? negative text = some x := by
  obtain ⟨negative, m, q, decoded⟩ := Binary.decode_of_isFinite hx
  obtain ⟨text, written, numeric, -, read⟩ := literal_of_decode decoded
  exact ⟨negative, text, written, numeric, by rw [read, Binary.ofMagnitude_of_decode decoded]⟩

end NumberText
end MatrixCode
