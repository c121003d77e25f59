import RowFilter.Proofs.Coercions

/-!
# Whole numerals

The texts that become a whole number, and the number that they become. A whole numeral is a run of
digits with a sign or none, between blanks or none. Its number is rounded first and tested after
that, but no number beyond the safe integers is rounded to one of them, so that exactly the
numerals of safe integers are accepted, and none of them is rounded.
-/

namespace RowFilter

namespace Text

/-! ## Blanks around a text -/

theorem isBlank_of_isDigit {c : Char} (h : isDigit c = true) : isBlank c = false := by
  simp only [isDigit, Bool.and_eq_true, decide_eq_true_eq, Char.le_def, UInt32.le_iff_toNat_le] at h
  have hlow : 48 ≤ c.toNat := h.1
  have hhigh : c.toNat ≤ 57 := h.2
  simp only [isBlank, blankRanges, List.any_cons, List.any_nil, Bool.or_false, Bool.or_eq_false_iff,
    Bool.and_eq_false_iff, decide_eq_false_iff_not]
  omega

/-- Blanks in front of a text that begins with no blank. -/
theorem dropWhile_isBlank {blanks rest : List Char} (hblanks : ∀ c ∈ blanks, isBlank c = true)
    (hrest : ∀ c ∈ rest.head?, isBlank c = false) :
    (blanks ++ rest).dropWhile isBlank = rest := by
  rw [List.dropWhile_append_of_pos hblanks]
  cases rest with
  | nil => rfl
  | cons c rest => exact List.dropWhile_cons_of_neg (by simp [hrest c rfl])

theorem trim_of_blanks {before body after : List Char} (hne : body ≠ [])
    (hbefore : ∀ c ∈ before, isBlank c = true) (hafter : ∀ c ∈ after, isBlank c = true)
    (hhead : ∀ c ∈ body.head?, isBlank c = false)
    (hlast : ∀ c ∈ body.getLast?, isBlank c = false) :
    trim (before ++ (body ++ after)) = body := by
  have hfront : (before ++ (body ++ after)).dropWhile isBlank = body ++ after := by
    refine dropWhile_isBlank hbefore ?_
    cases body with
    | nil => exact absurd rfl hne
    | cons c body => exact hhead
  have hback : (after.reverse ++ body.reverse).dropWhile isBlank = body.reverse := by
    refine dropWhile_isBlank (fun c hc => hafter c (List.mem_reverse.mp hc)) ?_
    rwa [List.head?_reverse]
  rw [trim, hfront, List.reverse_append, hback, List.reverse_reverse]

theorem exists_blanks_around_trim (s : List Char) : ∃ before after,
    s = before ++ (trim s ++ after) ∧ (∀ c ∈ before, isBlank c = true) ∧
      ∀ c ∈ after, isBlank c = true := by
  have hall (t : List Char) : ∀ c ∈ t.takeWhile isBlank, isBlank c = true :=
    fun _ hc => List.all_eq_true.mp List.all_takeWhile _ hc
  refine ⟨s.takeWhile isBlank, ((s.dropWhile isBlank).reverse.takeWhile isBlank).reverse, ?_,
    hall s, fun c hc => hall _ c (List.mem_reverse.mp hc)⟩
  rw [trim, ← List.reverse_append, List.takeWhile_append_dropWhile, List.reverse_reverse,
    List.takeWhile_append_dropWhile]

end Text

namespace Numeral
open Text

/-! ## The grammar -/

/-- A sign in front of a numeral, or none, and whether it is a minus. -/
inductive Sign : List Char → Bool → Prop
  | none : Sign [] false
  | plus : Sign ['+'] false
  | minus : Sign ['-'] true

theorem exists_sign (s : List Char) :
    ∃ sign, Sign sign (splitSign s).1 ∧ s = sign ++ (splitSign s).2 := by
  unfold splitSign
  split
  · exact ⟨_, .minus, rfl⟩
  · exact ⟨_, .plus, rfl⟩
  · exact ⟨_, .none, rfl⟩

theorem splitSign_append {sign ds : List Char} {negative : Bool} (h : Sign sign negative)
    (hds : ∀ c ∈ ds, isDigit c = true) : splitSign (sign ++ ds) = (negative, ds) := by
  cases h with
  | none =>
    cases ds with
    | nil => rfl
    | cons c ds =>
      have hc : isDigit c = true := hds c List.mem_cons_self
      have hminus : c ≠ '-' := by
        rintro rfl
        cases hc
      have hplus : c ≠ '+' := by
        rintro rfl
        cases hc
      simp [splitSign, hminus, hplus]
  | plus => rfl
  | minus => rfl

/-- A whole numeral, by its sign and its digits. Nothing but blanks stands around it. -/
structure IsWhole (s : List Char) (negative : Bool) (ds : List Char) : Prop where
  ne_nil : ds ≠ []
  isDigit : ∀ c ∈ ds, Text.isDigit c = true
  around : ∃ before sign after, s = before ++ (sign ++ ds ++ after) ∧ Sign sign negative ∧
    (∀ c ∈ before, isBlank c = true) ∧ ∀ c ∈ after, isBlank c = true

variable {s ds : List Char} {negative : Bool} {m : Nat}

namespace IsWhole

/-- Without the blanks a whole numeral is its sign and its digits. -/
theorem trim_eq (h : IsWhole s negative ds) :
    ∃ sign, Sign sign negative ∧ trim s = sign ++ ds := by
  obtain ⟨before, sign, after, rfl, hsign, hbefore, hafter⟩ := h.around
  have hdigit : ∀ c ∈ ds, isBlank c = false := fun c hc => isBlank_of_isDigit (h.isDigit c hc)
  refine ⟨sign, hsign, trim_of_blanks (by simp [h.ne_nil]) hbefore hafter ?_ ?_⟩
  · cases hsign with
    | none => exact fun c hc => hdigit c (List.mem_of_mem_head? hc)
    | plus =>
      rintro _ ⟨⟩
      decide
    | minus =>
      rintro _ ⟨⟩
      decide
  · rw [List.getLast?_append, List.getLast?_eq_some_getLast h.ne_nil, Option.some_or]
    rintro _ ⟨⟩
    exact hdigit _ (List.getLast_mem h.ne_nil)

theorem whole?_eq (h : IsWhole s negative ds) : whole? s = some (negative, readDigits ds) := by
  obtain ⟨sign, hsign, htrim⟩ := h.trim_eq
  have hall : ds.all Text.isDigit = true := List.all_eq_true.mpr h.isDigit
  simp only [whole?, htrim, splitSign_append hsign h.isDigit, h.ne_nil, ne_eq, not_false_eq_true,
    hall, and_self, if_true]

end IsWhole

/-- The integer of a sign and digits. -/
def integer (negative : Bool) (ds : List Char) : Int :=
  if negative then -(readDigits ds : Int) else readDigits ds

theorem natAbs_integer (negative : Bool) (ds : List Char) :
    (integer negative ds).natAbs = readDigits ds := by
  unfold integer
  split <;> omega

/-- The numerals that are read are the whole numerals, with their sign and the number that their
digits denote. -/
theorem whole?_eq_some_iff :
    whole? s = some (negative, m) ↔ ∃ ds, IsWhole s negative ds ∧ readDigits ds = m := by
  constructor
  · intro h
    obtain ⟨sign, hsign, htrim⟩ := exists_sign (trim s)
    obtain ⟨before, after, hs, hbefore, hafter⟩ := exists_blanks_around_trim s
    simp only [whole?] at h
    split at h
    · next hdigits =>
      cases h
      refine ⟨_, ⟨hdigits.1, List.all_eq_true.mp hdigits.2, before, sign, after, ?_, hsign, hbefore,
        hafter⟩, rfl⟩
      rwa [← htrim]
    · cases h
  · rintro ⟨ds, hds, rfl⟩
    exact hds.whole?_eq

end Numeral

namespace Number

/-! ## Safe integers -/

theorem roundQuotient_bounds (num den : Nat) :
    num / den ≤ roundQuotient num den ∧ roundQuotient num den ≤ num / den + 1 := by
  unfold roundQuotient
  dsimp only
  split
  · omega
  · omega
  · split <;> omega

theorem significand_ge {scale : Fin 2047} {fraction : Fraction} (h : scale.val ≠ 0) :
    Nat.pow 2 52 ≤ significand scale fraction := by
  rw [significand, if_neg h]
  exact Nat.le_add_right _ _

/-- A number of full length with a positive exponent is beyond the safe integers. -/
theorem isSafeInteger_pack {whole step : Nat} (negative : Bool) (hlow : Nat.pow 2 52 ≤ whole)
    (hstep : 0 < step) : (pack negative whole step).isSafeInteger = false := by
  unfold pack
  rw [dif_neg (Nat.not_lt.mpr hlow)]
  dsimp only
  generalize hscale : ((if whole = Nat.pow 2 53 then (step : Int) + 1 else step) + 1075).toNat = scale
  have hscale : 1076 ≤ scale := by
    rw [← hscale]
    split <;> omega
  split
  · next hlt =>
    have hexponent : 0 < exponent ⟨scale, hlt⟩ := by
      simp only [exponent]
      omega
    have hpow : 2 ^ 1 ≤ 2 ^ (exponent ⟨scale, hlt⟩).toNat :=
      Nat.pow_le_pow_right (by decide) (by omega)
    have hlarge : Nat.pow 2 52 * 2 ≤ significand ⟨scale, hlt⟩ (Fraction.ofNat whole) *
        Nat.pow 2 (exponent ⟨scale, hlt⟩).toNat :=
      Nat.mul_le_mul (significand_ge (Nat.ne_of_gt (Nat.lt_of_lt_of_le (by decide) hscale))) hpow
    have hsafe : maxSafe < Nat.pow 2 52 * 2 := by decide
    simp only [isSafeInteger, wholeMagnitude?, if_pos (Int.le_of_lt hexponent)]
    exact decide_eq_false (Nat.not_le.mpr (Nat.lt_of_lt_of_le hsafe hlarge))
  · rfl

/-- Whole numbers of more than 53 bits are rounded to 53 of them, and so to no safe integer. -/
theorem isSafeInteger_signed_of_le (negative : Bool) {m : Nat} (h : Nat.pow 2 53 ≤ m) :
    (signed negative m).isSafeInteger = false := by
  have hzero : m ≠ 0 := by
    rintro rfl
    cases h
  have hlog : 53 ≤ m.log2 := (Nat.le_log2 hzero).mpr h
  have hstep : max (floorLog2 m 1 - 52) (-1074) = ((m.log2 - 52 : Nat) : Int) := by
    rw [floorLog2_one hzero]
    omega
  have hnone : (-((m.log2 - 52 : Nat) : Int)).toNat = 0 := by omega
  have hquotient : Nat.pow 2 52 ≤ m / Nat.pow 2 (m.log2 - 52) := by
    refine (Nat.le_div_iff_mul_le (Nat.two_pow_pos _)).mpr ?_
    calc Nat.pow 2 52 * Nat.pow 2 (m.log2 - 52) = 2 ^ (52 + (m.log2 - 52)) :=
          (Nat.pow_add 2 _ _).symm
      _ = 2 ^ m.log2 := by rw [Nat.add_sub_cancel' (by omega)]
      _ ≤ m := Nat.log2_self_le hzero
  have hround := (roundQuotient_bounds m (Nat.pow 2 (m.log2 - 52))).1
  simp only [signed, ofRatio, if_neg hzero, hstep, hnone, Int.toNat_natCast]
  rw [show m * Nat.pow 2 0 = m from Nat.mul_one m, Nat.one_mul]
  exact isSafeInteger_pack negative (Nat.le_trans hquotient hround) (by omega)

/-- The number nearest to a whole number is a safe integer just if the whole number is one. -/
theorem isSafeInteger_signed_iff {negative : Bool} {m : Nat} :
    (signed negative m).isSafeInteger = true ↔ m ≤ maxSafe := by
  by_cases h : m < Nat.pow 2 53
  · rw [isSafeInteger, wholeMagnitude?_signed negative h]
    simp
  · rw [isSafeInteger_signed_of_le negative (Nat.not_lt.mp h)]
    simp only [maxSafe, Nat.pow_eq] at h ⊢
    simp only [Bool.false_eq_true, false_iff]
    omega

/-- Every finite number is a multiple of the least one, two to the power of minus this. -/
def leastPower : Nat := 1074

/-- How often a whole number counts the least number. -/
theorem significand_mul_eq {negative : Bool} {scale : Fin 2047} {fraction : Fraction} {m : Nat}
    (h : (finite negative scale fraction).wholeMagnitude? = some m) :
    significand scale fraction * Nat.pow 2 (max scale.val 1 - 1) = m * Nat.pow 2 leastPower := by
  have hleast : leastPower = 1074 := rfl
  have hexponent : exponent scale = (max scale.val 1 : Nat) - 1075 := rfl
  simp only [wholeMagnitude?, Nat.pow_eq] at h ⊢
  split at h
  · next hpos =>
    have hsplit : max scale.val 1 - 1 = (exponent scale).toNat + leastPower := by omega
    rw [← Option.some.inj h, hsplit, Nat.pow_add, Nat.mul_assoc]
  · split at h
    · next hdvd =>
      have hsplit : leastPower = (-exponent scale).toNat + (max scale.val 1 - 1) := by omega
      rw [← Option.some.inj h, hsplit, Nat.pow_add, ← Nat.mul_assoc,
        Nat.div_mul_cancel (Nat.dvd_of_mod_eq_zero hdvd)]
    · cases h

/-- Of two numbers as large as each other, neither has the greater scale. -/
theorem scale_le_of_significand_mul_eq {scale scale' : Fin 2047} {fraction fraction' : Fraction}
    (h : significand scale fraction * Nat.pow 2 (max scale.val 1 - 1) =
      significand scale' fraction' * Nat.pow 2 (max scale'.val 1 - 1)) :
    scale.val ≤ scale'.val := by
  simp only [Nat.pow_eq] at h
  refine Nat.not_lt.mp fun hlt => ?_
  have hlow : 2 ^ 52 ≤ significand scale fraction := significand_ge (Nat.ne_zero_of_lt hlt)
  have hhigh : significand scale' fraction' < 2 ^ 53 := significand_lt scale' fraction'
  by_cases hzero : scale'.val = 0
  · have hfraction : significand scale' fraction' < 2 ^ 52 := by
      rw [significand, if_pos hzero]
      exact fraction'.isLt
    have hnone : max scale'.val 1 - 1 = 0 := by omega
    have hmul := Nat.le_mul_of_pos_right (significand scale fraction)
      (Nat.two_pow_pos (max scale.val 1 - 1))
    rw [h, hnone, Nat.pow_zero, Nat.mul_one] at hmul
    omega
  · have hsplit : max scale.val 1 - 1 =
        (scale.val - scale'.val - 1) + 1 + (max scale'.val 1 - 1) := by omega
    rw [hsplit, Nat.pow_add, ← Nat.mul_assoc] at h
    have hsignificand := Nat.eq_of_mul_eq_mul_right (Nat.two_pow_pos _) h
    have hmul := Nat.le_mul_of_pos_right (significand scale fraction * 2)
      (Nat.two_pow_pos (scale.val - scale'.val - 1))
    rw [Nat.pow_succ, Nat.mul_comm (2 ^ _) 2, ← Nat.mul_assoc] at hsignificand
    omega

/-- Numbers are told by their sign and the whole number that they are. -/
theorem eq_of_wholeMagnitude? {n n' : Number} {m : Nat} (h : n.wholeMagnitude? = some m)
    (h' : n'.wholeMagnitude? = some m) (hsign : n.isNegative = n'.isNegative) : n = n' := by
  cases n with
  | finite negative scale fraction =>
    cases n' with
    | finite negative' scale' fraction' =>
      have hsize := (significand_mul_eq h).trans (significand_mul_eq h').symm
      have hscale : scale = scale' :=
        Fin.ext (Nat.le_antisymm (scale_le_of_significand_mul_eq hsize)
          (scale_le_of_significand_mul_eq hsize.symm))
      subst hscale
      have hsignificand := Nat.eq_of_mul_eq_mul_right (Nat.two_pow_pos _) hsize
      have hfraction : fraction = fraction' := by
        unfold significand at hsignificand
        split at hsignificand
        · exact Fin.ext hsignificand
        · exact Fin.ext (Nat.add_left_cancel hsignificand)
      have hsign : negative = negative' := hsign
      rw [hsign, hfraction]
    | _ => cases h'
  | _ => cases h

end Number

namespace Coercion
open Text Numeral

variable {s : String} {negative : Bool} {ds : List Char} {n : Number}

/-- A whole numeral is no null. -/
theorem isNull_of_isWhole (h : IsWhole s.toList negative ds) : isNull (.text s) = false := by
  obtain ⟨c, hc⟩ := List.exists_mem_of_ne_nil ds h.ne_nil
  have hdigit := h.isDigit c hc
  obtain ⟨before, sign, after, hs, _⟩ := h.around
  refine isNull_text_of_mem (c := c) (by simp [hs, hc]) fun hmem => ?_
  rw [toLower_of_isDigit hdigit] at hmem
  have hletters : "null".toList.any isDigit = false := by decide
  rw [List.any_eq_true.mpr ⟨c, hmem, hdigit⟩] at hletters
  cases hletters

/-- A text becomes a whole number just if it is the numeral of a safe integer, and then the
number nearest to that, which is the integer itself. -/
theorem coerce_int_eq_number_iff : coerce (.scalar .int) (.text s) = .ok (.number n) ↔
    ∃ negative ds, IsWhole s.toList negative ds ∧ readDigits ds ≤ Number.maxSafe ∧
      n = .signed negative (readDigits ds) := by
  constructor
  · intro h
    cases hnull : isNull (.text s) with
    | true =>
      rw [coerce_of_isNull _ hnull] at h
      cases h
    | false =>
      rw [coerce_scalar_eq_ok_iff hnull] at h
      simp only [convert?, int?] at h
      split at h
      · next negative m hwhole =>
        obtain ⟨ds, hds, rfl⟩ := whole?_eq_some_iff.mp hwhole
        split at h <;> cases h
        next hsafe => exact ⟨negative, ds, hds, Number.isSafeInteger_signed_iff.mp hsafe, rfl⟩
      · cases h
  · rintro ⟨negative, ds, hds, hsafe, rfl⟩
    rw [coerce_scalar_eq_ok_iff (isNull_of_isWhole hds)]
    simp only [convert?, int?, hds.whole?_eq, Number.isSafeInteger_signed_iff.mpr hsafe, if_true]

/-- A safe integer with a sign is one number. -/
theorem eq_signed_iff (h : readDigits ds ≤ Number.maxSafe) :
    n = .signed negative (readDigits ds) ↔
      n.toInt? = some (integer negative ds) ∧ n.isNegative = negative := by
  have hlt : readDigits ds < Nat.pow 2 53 := Nat.lt_of_le_pred (by decide) h
  have hsign : (Number.signed negative (readDigits ds)).isNegative = negative :=
    (Number.hasSign_ofRatio negative _ 1).isNegative
  constructor
  · rintro rfl
    exact ⟨Number.toInt?_signed negative hlt, hsign⟩
  · rintro ⟨hint, hnegative⟩
    cases hm : n.wholeMagnitude? with
    | none =>
      rw [Number.toInt?, hm] at hint
      cases hint
    | some m =>
      rw [Number.toInt?, hm] at hint
      have hvalue : (if n.isNegative then -(m : Int) else m) = integer negative ds :=
        Option.some.inj hint
      have habs : m = readDigits ds := by
        rw [← natAbs_integer negative ds, ← hvalue]
        split <;> omega
      exact Number.eq_of_wholeMagnitude? (habs ▸ hm) (Number.wholeMagnitude?_signed negative hlt)
        (hnegative.trans hsign.symm)

theorem exists_number_of_int? {w : Value} (h : int? (.text s) = some w) : ∃ n, w = .number n := by
  unfold int? at h
  dsimp only at h
  split at h
  · split at h <;> cases h
    exact ⟨_, rfl⟩
  · cases h

/-- Whatever becomes no number is refused, unless it spells null. -/
theorem coerce_int_text_eq_error_iff :
    coerce (.scalar .int) (.text s) = .error (.unconvertible (.text s) "int") ↔
      spells "null" s = false ∧ ¬∃ n, coerce (.scalar .int) (.text s) = .ok (.number n) := by
  cases hnull : isNull (.text s) with
  | true =>
    have hspells : spells "null" s = true := hnull
    rw [coerce_of_isNull _ hnull, hspells]
    refine iff_of_false (fun h => ?_) fun h => ?_
    · cases h
    · cases h.1
  | false =>
    have hspells : spells "null" s = false := hnull
    rw [and_iff_right hspells]
    cases hconvert : convert? .int (.text s) with
    | none =>
      have hrefused : coerce (.scalar .int) (.text s) = .error (.unconvertible (.text s) "int") := by
        simp only [coerce, hnull, hconvert]
        rfl
      rw [hrefused]
      refine iff_of_true rfl ?_
      rintro ⟨n, hn⟩
      cases hn
    | some w =>
      obtain ⟨n, rfl⟩ := exists_number_of_int? hconvert
      rw [(coerce_scalar_eq_ok_iff hnull).mpr hconvert]
      refine iff_of_false (fun h => ?_) fun h => h ⟨n, rfl⟩
      cases h

end Coercion

open Coercion Numeral in
/-- A text becomes a whole number just if it is the numeral of an integer between the safe ones,
with any number of zeros in front. The number is that integer, and a zero keeps its sign. Every
other text is refused, unless it spells null. -/
theorem coerce_text_int_iff (s : String) :
    ((∃ n, coerce (.scalar .int) (.text s) = .ok (.number n)) ↔
      ∃ negative ds, IsWhole s.toList negative ds ∧
        (integer negative ds).natAbs ≤ Number.maxSafe) ∧
    (∀ n, coerce (.scalar .int) (.text s) = .ok (.number n) ↔
      ∃ negative ds, IsWhole s.toList negative ds ∧
        (integer negative ds).natAbs ≤ Number.maxSafe ∧
        n.toInt? = some (integer negative ds) ∧ n.isNegative = negative) ∧
    (coerce (.scalar .int) (.text s) = .error (.unconvertible (.text s) "int") ↔
      Text.spells "null" s = false ∧ ¬∃ negative ds, IsWhole s.toList negative ds ∧
        (integer negative ds).natAbs ≤ Number.maxSafe) := by
  simp only [natAbs_integer]
  have hnumber (n : Number) : coerce (.scalar .int) (.text s) = .ok (.number n) ↔
      ∃ negative ds, IsWhole s.toList negative ds ∧ Text.readDigits ds ≤ Number.maxSafe ∧
        n.toInt? = some (integer negative ds) ∧ n.isNegative = negative := by
    rw [coerce_int_eq_number_iff]
    exact exists_congr fun negative => exists_congr fun ds =>
      and_congr_right fun _ => and_congr_right fun hsafe => eq_signed_iff hsafe
  have hsome : (∃ n, coerce (.scalar .int) (.text s) = .ok (.number n)) ↔
      ∃ negative ds, IsWhole s.toList negative ds ∧ Text.readDigits ds ≤ Number.maxSafe := by
    constructor
    · rintro ⟨n, hn⟩
      obtain ⟨negative, ds, hds, hsafe, _⟩ := (hnumber n).mp hn
      exact ⟨negative, ds, hds, hsafe⟩
    · rintro ⟨negative, ds, hds, hsafe⟩
      exact ⟨_, coerce_int_eq_number_iff.mpr ⟨negative, ds, hds, hsafe, rfl⟩⟩
  refine ⟨hsome, hnumber, ?_⟩
  rw [← hsome]
  exact coerce_int_text_eq_error_iff

-- Halfway between two numbers, of which the lower is the first beyond the safe integers.
example : Coercion.coerce (.scalar .int) (.text "9007199254740993") =
    .error (.unconvertible (.text "9007199254740993") "int") := by rfl

end RowFilter
