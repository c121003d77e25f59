import RowFilter.Number.Numeral

/-!
# Whole numbers

Ratios and decimals come to numbers of their sign. Every whole number of up to 53 bits is a number
of its own, so making a number of it does not round, and cutting the fraction of a number off
leaves at most that many bits.
-/

namespace RowFilter.Number

/-! ## Signs -/

/-- A number, and not none, with this sign. -/
structure HasSign (negative : Bool) (n : Number) : Prop where
  ne_nan : n ≠ .nan
  isNegative : n.isNegative = negative

theorem hasSign_finite (negative : Bool) (scale : Fin 2047) (fraction : Fraction) :
    HasSign negative (.finite negative scale fraction) :=
  ⟨Number.noConfusion, rfl⟩

theorem hasSign_infinite (negative : Bool) : HasSign negative (.infinite negative) :=
  ⟨Number.noConfusion, rfl⟩

theorem hasSign_pack (negative : Bool) (whole : Nat) (step : Int) :
    HasSign negative (pack negative whole step) := by
  unfold pack
  split
  · exact hasSign_finite negative _ _
  · dsimp only
    generalize ((if whole = Nat.pow 2 53 then step + 1 else step) + 1075).toNat = scale
    split
    · exact hasSign_finite negative _ _
    · exact hasSign_infinite negative

theorem hasSign_ofRatio (negative : Bool) (num den : Nat) :
    HasSign negative (ofRatio negative num den) := by
  unfold ofRatio
  split
  · exact hasSign_finite negative _ _
  · exact hasSign_pack negative _ _

theorem hasSign_ofDecimal (negative : Bool) (digits : Nat) (power : Int) :
    HasSign negative (ofDecimal negative digits power) := by
  unfold ofDecimal
  dsimp only
  split
  · exact hasSign_finite negative _ _
  · split
    · exact hasSign_infinite negative
    · split
      · exact hasSign_finite negative _ _
      · exact hasSign_ofRatio negative _ _

theorem ne_nan_of_decimal? {s : List Char} {n : Number} (h : Numeral.decimal? s = some n) :
    n ≠ .nan := by
  simp only [Numeral.decimal?] at h
  split at h
  · cases h
  · obtain ⟨power, _, h⟩ := Option.bind_eq_some_iff.mp h
    cases h
    exact (hasSign_ofDecimal _ _ _).ne_nan

/-! ## Ratios over one -/

theorem floorLog2_one {m : Nat} (h : m ≠ 0) : floorLog2 m 1 = m.log2 := by
  have hlog : Nat.log2 1 = 0 := by decide
  have hle : 1 * Nat.pow 2 m.log2 ≤ m * Nat.pow 2 0 := by
    simpa using Nat.log2_self_le h
  simp only [floorLog2, hlog]
  have hto : ((m.log2 : Int) - (0 : Nat)).toNat = m.log2 := by omega
  have hneg : (-((m.log2 : Int) - (0 : Nat))).toNat = 0 := by omega
  rw [hto, hneg, if_pos hle]
  omega

theorem roundQuotient_one (n : Nat) : roundQuotient n 1 = n := by
  simp [roundQuotient, Nat.mod_one, compare, compareOfLessAndEq]

theorem significand_ofNat (scale : Fin 2047) {whole : Nat} (hscale : scale.val ≠ 0)
    (hlow : Nat.pow 2 52 ≤ whole) (hhigh : whole < Nat.pow 2 53) :
    significand scale (Fraction.ofNat whole) = whole := by
  simp only [significand, if_neg hscale, Fraction.ofNat, Nat.pow_eq] at hlow hhigh ⊢
  omega

theorem pack_eq {whole bits : Nat} (negative : Bool) (hlow : Nat.pow 2 52 ≤ whole)
    (hhigh : whole < Nat.pow 2 53) (hbits : bits ≤ 52) :
    pack negative whole (-bits) =
      .finite negative ⟨1075 - bits, by omega⟩ (Fraction.ofNat whole) := by
  have hscale : (-(bits : Int) + 1075).toNat = 1075 - bits := by omega
  simp only [pack, dif_neg (Nat.not_lt.mpr hlow), if_neg (Nat.ne_of_lt hhigh), hscale]
  rw [dif_pos (by omega : 1075 - bits < 2047)]

/-- A number with all its 53 bits, some of which stand behind the point. -/
theorem wholeMagnitude?_shifted {m bits : Nat} (negative : Bool)
    (hlow : Nat.pow 2 52 ≤ m * Nat.pow 2 bits) (hhigh : m * Nat.pow 2 bits < Nat.pow 2 53)
    (hbits : bits ≤ 52) :
    (pack negative (m * Nat.pow 2 bits) (-bits)).wholeMagnitude? = some m := by
  have hscale : 1075 - bits ≠ 0 := by omega
  have hexponent : exponent ⟨1075 - bits, by omega⟩ = -(bits : Int) := by
    simp only [exponent]
    omega
  rw [pack_eq negative hlow hhigh hbits]
  simp only [wholeMagnitude?, hexponent, significand_ofNat ⟨1075 - bits, by omega⟩
    hscale hlow hhigh]
  cases bits with
  | zero => simp
  | succ bits =>
    have hto : (-(-((bits + 1 : Nat) : Int))).toNat = bits + 1 := by omega
    have hdiv : m * Nat.pow 2 (bits + 1) / Nat.pow 2 (bits + 1) = m :=
      Nat.mul_div_cancel m (Nat.two_pow_pos (bits + 1))
    rw [if_neg (by omega), hto, if_pos (Nat.mul_mod_left m _), hdiv]

/-- A whole number of up to 53 bits is not rounded. -/
theorem wholeMagnitude?_signed (negative : Bool) {m : Nat} (h : m < Nat.pow 2 53) :
    (signed negative m).wholeMagnitude? = some m := by
  by_cases hzero : m = 0
  · have hsignificand : significand 0 (Fraction.ofNat 0) = 0 := rfl
    have hexponent : ¬0 ≤ exponent 0 := by decide
    simp only [signed, ofRatio, zero, wholeMagnitude?, hsignificand,
      if_neg hexponent, Nat.zero_mod, Nat.zero_div, if_true, hzero]
  · have hlog : m.log2 < 53 := (Nat.log2_lt hzero).mpr h
    have hstep : max (floorLog2 m 1 - 52) (-1074) = -((52 - m.log2 : Nat) : Int) := by
      rw [floorLog2_one hzero]
      omega
    have hbits : (-(-((52 - m.log2 : Nat) : Int))).toNat = 52 - m.log2 := by omega
    have hnone : (-((52 - m.log2 : Nat) : Int)).toNat = 0 := by omega
    have hlow : Nat.pow 2 52 ≤ m * Nat.pow 2 (52 - m.log2) := by
      calc Nat.pow 2 52 = 2 ^ (m.log2 + (52 - m.log2)) := by
            rw [Nat.add_sub_cancel' (by omega), Nat.pow_eq]
        _ = 2 ^ m.log2 * 2 ^ (52 - m.log2) := Nat.pow_add 2 _ _
        _ ≤ m * Nat.pow 2 (52 - m.log2) := Nat.mul_le_mul_right _ (Nat.log2_self_le hzero)
    have hhigh : m * Nat.pow 2 (52 - m.log2) < Nat.pow 2 53 := by
      calc m * Nat.pow 2 (52 - m.log2)
          < 2 ^ (m.log2 + 1) * 2 ^ (52 - m.log2) :=
            Nat.mul_lt_mul_of_pos_right Nat.lt_log2_self (Nat.two_pow_pos _)
        _ = 2 ^ (m.log2 + 1 + (52 - m.log2)) := (Nat.pow_add 2 _ _).symm
        _ = Nat.pow 2 53 := by
            rw [show m.log2 + 1 + (52 - m.log2) = 53 by omega, Nat.pow_eq]
    simp only [signed, ofRatio, if_neg hzero, hstep, hbits, hnone]
    rw [show 1 * Nat.pow 2 0 = 1 from rfl, roundQuotient_one]
    exact wholeMagnitude?_shifted negative hlow hhigh (by omega)

theorem isInteger_signed (negative : Bool) {m : Nat} (h : m < Nat.pow 2 53) :
    (signed negative m).isInteger = true := by
  rw [isInteger, wholeMagnitude?_signed negative h]
  rfl

theorem toInt?_signed (negative : Bool) {m : Nat} (h : m < Nat.pow 2 53) :
    (signed negative m).toInt? = some (if negative then -(m : Int) else m) := by
  have hsign : (signed negative m).isNegative = negative := (hasSign_ofRatio negative m 1).isNegative
  rw [toInt?, wholeMagnitude?_signed negative h, hsign]
  rfl

theorem toInt?_ofNat {m : Nat} (h : m < Nat.pow 2 53) : (ofNat m).toInt? = some (m : Int) :=
  toInt?_signed false h

theorem isFinite_of_isInteger {n : Number} (h : n.isInteger = true) : n.isFinite = true := by
  cases n with
  | finite => rfl
  | _ => cases h

theorem isInteger_of_isSafeInteger {n : Number} (h : n.isSafeInteger = true) :
    n.isInteger = true := by
  unfold isSafeInteger at h
  split at h
  · next m hm => rw [isInteger, hm, Option.isSome_some]
  · cases h

/-- Cutting the fraction off leaves a whole number. -/
theorem isInteger_trunc {n : Number} (h : n.isFinite = true) : n.trunc.isInteger = true := by
  cases n with
  | finite negative scale fraction =>
    simp only [trunc]
    split
    · next hexponent => simp only [isInteger, wholeMagnitude?, if_pos hexponent, Option.isSome]
    · exact isInteger_signed negative
        (Nat.lt_of_le_of_lt (Nat.div_le_self _ _) (significand_lt scale fraction))
  | _ => cases h

end RowFilter.Number
