import Mathlib.Algebra.Order.Field.Basic
import Mathlib.Data.List.TakeWhile
import Mathlib.Data.Rat.Cast.Order
import Mathlib.Tactic.Linarith
import Mathlib.Tactic.Ring
import RowFilter.Number.Numeral
import RowFilter.Number.Shortest
import RowFilter.Proofs.FixedForms

/-!
# Texts of numbers

The decimals that read back to a number lie between the points half way to its neighbours, and
such a point belongs to the one neighbour whose significand is even. So a decimal reads back to
one number only. The digits that are written denote a decimal that reads back, in whichever way
they are laid out, and so two numbers with the same text are equal, or both of them zero.
-/

namespace RowFilter.Number

/-! ## Decimals -/

/-- What a decimal denotes. -/
def decimal (digits : Nat) (power : Int) : ℚ := digits * (10 : ℚ) ^ power

theorem zpow_mul_pow_neg {x : ℚ} (hx : x ≠ 0) (i : Int) :
    x ^ i * x ^ (-i).toNat = x ^ i.toNat := by
  rw [← zpow_natCast, ← zpow_natCast, ← zpow_add₀ hx]
  congr 1
  omega

/-- The factor that makes whole numbers of both sides of a comparison. -/
def wholeFactor (i j : Int) : ℚ := 10 ^ (-i).toNat * 2 ^ (-j).toNat

theorem wholeFactor_pos (i j : Int) : 0 < wholeFactor i j := by
  unfold wholeFactor
  positivity

theorem compareScaled_eq (a : Nat) (i : Int) (b : Nat) (j : Int) :
    ∃ x y : Nat, compareScaled a i b j = compare x y ∧
      (x : ℚ) = decimal a i * wholeFactor i j ∧ (y : ℚ) = b * 2 ^ j * wholeFactor i j := by
  refine ⟨_, _, rfl, ?_, ?_⟩
  · rw [decimal, wholeFactor, Nat.cast_mul, Nat.cast_mul, Nat.pow_eq, Nat.pow_eq, Nat.cast_pow,
      Nat.cast_pow, ← zpow_mul_pow_neg (x := ((10 : Nat) : ℚ)) (by norm_num) i]
    push_cast
    ring
  · rw [wholeFactor, Nat.cast_mul, Nat.cast_mul, Nat.pow_eq, Nat.pow_eq, Nat.cast_pow,
      Nat.cast_pow, ← zpow_mul_pow_neg (x := ((2 : Nat) : ℚ)) (by norm_num) j]
    push_cast
    ring

variable {a b : Nat} {i j : Int}

theorem compareScaled_eq_lt_iff : compareScaled a i b j = .lt ↔ decimal a i < b * 2 ^ j := by
  obtain ⟨x, y, hcompare, hx, hy⟩ := compareScaled_eq a i b j
  rw [hcompare, Nat.compare_eq_lt, ← @Nat.cast_lt ℚ, hx, hy,
    mul_lt_mul_iff_left₀ (wholeFactor_pos i j)]

theorem compareScaled_eq_gt_iff : compareScaled a i b j = .gt ↔ b * 2 ^ j < decimal a i := by
  obtain ⟨x, y, hcompare, hx, hy⟩ := compareScaled_eq a i b j
  rw [hcompare, Nat.compare_eq_gt, ← @Nat.cast_lt ℚ, hx, hy,
    mul_lt_mul_iff_left₀ (wholeFactor_pos i j)]

theorem compareScaled_eq_eq_iff : compareScaled a i b j = .eq ↔ decimal a i = b * 2 ^ j := by
  obtain ⟨x, y, hcompare, hx, hy⟩ := compareScaled_eq a i b j
  rw [hcompare, Nat.compare_eq_eq, ← @Nat.cast_inj ℚ, hx, hy,
    mul_left_inj' (wholeFactor_pos i j).ne']

/-! ## The points half way to the neighbours

They are counted in quarters of the least magnitude, of which every number is a whole multiple. -/

variable {scale scale' : Fin 2047} {fraction fraction' : Fraction}

/-- A quarter of the least magnitude. -/
def quarter : ℚ := (2 : ℚ) ^ (-1076 : Int)

/-- Quarters of a unit of the significand at this scale, in quarters of the least magnitude. -/
def spacing (scale : Fin 2047) : Nat := 2 ^ (max scale.val 1 - 1)

/-- The point half way to the neighbour below, in quarters of a unit of the significand. -/
def below (scale : Fin 2047) (fraction : Fraction) : Nat :=
  if narrowBelow scale fraction then 4 * significand scale fraction - 1
  else 4 * significand scale fraction - 2

def lowest (scale : Fin 2047) (fraction : Fraction) : Nat := below scale fraction * spacing scale

def highest (scale : Fin 2047) (fraction : Fraction) : Nat :=
  (4 * significand scale fraction + 2) * spacing scale

theorem quarter_pos : 0 < quarter := zpow_pos (by norm_num) _

theorem spacing_pos : 0 < spacing scale := Nat.pow_pos (by decide)

theorem mul_two_zpow_exponent (b : Nat) :
    (b : ℚ) * 2 ^ (exponent scale - 2) = (b * spacing scale : Nat) * quarter := by
  have hscale : exponent scale - 2 = (max scale.val 1 - 1 : Nat) + (-1076 : Int) := by
    simp only [exponent]
    omega
  rw [hscale, zpow_add₀ (by norm_num), zpow_natCast, spacing, ← quarter]
  push_cast
  ring

/-- A point that reads back to the number with these fields: it is between the points half way to
the neighbours, which themselves do so only if the significand is even. -/
structure Reads (scale : Fin 2047) (fraction : Fraction) (x : ℚ) : Prop where
  lowest_le : lowest scale fraction * quarter ≤ x
  le_highest : x ≤ highest scale fraction * quarter
  even_of_lowest : x = lowest scale fraction * quarter → significand scale fraction % 2 = 0
  even_of_highest : x = highest scale fraction * quarter → significand scale fraction % 2 = 0

theorem reads_of_readsBack {digits : Nat} {power : Int}
    (h : readsBack scale fraction digits power = true) :
    Reads scale fraction (decimal digits power) := by
  simp only [readsBack, Bool.and_eq_true, Bool.or_eq_true, beq_iff_eq, compareScaled_eq_lt_iff,
    compareScaled_eq_gt_iff, compareScaled_eq_eq_iff] at h
  have hlow : (if narrowBelow scale fraction = true then 4 * significand scale fraction - 1
      else 4 * significand scale fraction - 2) = below scale fraction := rfl
  rw [hlow, mul_two_zpow_exponent, mul_two_zpow_exponent] at h
  obtain ⟨hlow, hhigh⟩ := h
  constructor
  · exact hlow.elim le_of_lt fun h => h.2.ge
  · exact hhigh.elim le_of_lt fun h => h.2.le
  · intro heq
    exact hlow.elim (fun h => absurd heq h.ne') And.left
  · intro heq
    exact hhigh.elim (fun h => absurd heq h.ne) And.left

/-- The exact value reads back. -/
theorem reads_exact (h : significand scale fraction ≠ 0) :
    Reads scale fraction ((4 * significand scale fraction * spacing scale : Nat) * quarter) := by
  have hpos := quarter_pos
  have hlow : lowest scale fraction < 4 * significand scale fraction * spacing scale := by
    refine Nat.mul_lt_mul_of_pos_right ?_ spacing_pos
    unfold below
    split <;> omega
  have hhigh : 4 * significand scale fraction * spacing scale < highest scale fraction :=
    Nat.mul_lt_mul_of_pos_right (by omega) spacing_pos
  have hlow : (lowest scale fraction : ℚ) * quarter <
      (4 * significand scale fraction * spacing scale : Nat) * quarter := by gcongr
  have hhigh : ((4 * significand scale fraction * spacing scale : Nat) : ℚ) * quarter <
      highest scale fraction * quarter := by gcongr
  exact ⟨hlow.le, hhigh.le, fun h => absurd h hlow.ne', fun h => absurd h hhigh.ne⟩

/-! ## One number for a decimal -/

/-- The fields in the order of the numbers that they make. -/
def Before (scale : Fin 2047) (fraction : Fraction) (scale' : Fin 2047) (fraction' : Fraction) :
    Prop :=
  scale.val < scale'.val ∨ scale = scale' ∧ fraction.val < fraction'.val

theorem before_or_before (h : ¬(scale = scale' ∧ fraction = fraction')) :
    Before scale fraction scale' fraction' ∨ Before scale' fraction' scale fraction := by
  obtain hlt | heq | hgt := lt_trichotomy scale.val scale'.val
  · exact .inl (.inl hlt)
  · obtain hlt | hfraction | hgt := lt_trichotomy fraction.val fraction'.val
    · exact .inl (.inr ⟨Fin.ext heq, hlt⟩)
    · exact absurd ⟨Fin.ext heq, Fin.ext hfraction⟩ h
    · exact .inr (.inr ⟨Fin.ext heq.symm, hgt⟩)
  · exact .inr (.inl hgt)

/-- Points of one scale. -/
theorem highest_le_lowest_of_spacing (hspacing : spacing scale = spacing scale')
    (hlt : significand scale fraction < significand scale' fraction')
    (hwide : narrowBelow scale' fraction' = false) :
    highest scale fraction ≤ lowest scale' fraction' ∧
      (highest scale fraction = lowest scale' fraction' →
        significand scale fraction % 2 = 0 → significand scale' fraction' % 2 = 0 → False) := by
  simp only [highest, lowest, below, hwide, Bool.false_eq_true, if_false, hspacing]
  refine ⟨Nat.mul_le_mul_right _ (by omega), fun heq => ?_⟩
  have := Nat.eq_of_mul_eq_mul_right spacing_pos heq
  omega

theorem lt_significand (h : scale.val ≠ 0) : 2 ^ 52 ≤ significand scale fraction := by
  simp [significand, h]

/-- Points of two scales. The upper number has all its bits. -/
theorem highest_le_lowest_of_scale (h : max scale.val 1 < scale'.val) :
    highest scale fraction ≤ lowest scale' fraction' ∧
      (highest scale fraction = lowest scale' fraction' →
        significand scale fraction % 2 = 0 → significand scale' fraction' % 2 = 0 → False) := by
  have hm : significand scale fraction < 2 ^ 53 := significand_lt scale fraction
  have hm' : 2 ^ 52 ≤ significand scale' fraction' := lt_significand (by omega)
  have hbelow : 2 ^ 54 - 1 ≤ below scale' fraction' := by
    unfold below
    split
    · omega
    · next hnarrow =>
      simp only [narrowBelow, Bool.and_eq_true, beq_iff_eq, decide_eq_true_eq] at hnarrow
      have hsignificand : significand scale' fraction' = 2 ^ 52 + fraction'.val := by
        simp only [significand, Nat.pow_eq]
        rw [if_neg (by omega)]
      omega
  have hspacing : 2 * spacing scale ≤ spacing scale' := by
    rw [spacing, spacing, ← Nat.pow_succ']
    exact Nat.pow_le_pow_right (by decide) (by omega)
  have hlow : (2 ^ 55 - 2) * spacing scale ≤ lowest scale' fraction' := by
    calc (2 ^ 55 - 2) * spacing scale = (2 ^ 54 - 1) * (2 * spacing scale) := by ring
      _ ≤ below scale' fraction' * spacing scale' := Nat.mul_le_mul hbelow hspacing
  have hhigh : highest scale fraction ≤ (2 ^ 55 - 2) * spacing scale :=
    Nat.mul_le_mul_right _ (by omega)
  refine ⟨hhigh.trans hlow, fun heq => ?_⟩
  have htight : highest scale fraction = (2 ^ 55 - 2) * spacing scale :=
    le_antisymm hhigh (heq ▸ hlow)
  have := Nat.eq_of_mul_eq_mul_right spacing_pos htight
  omega

/-- The point half way above a number is not beyond the one half way below a later one, and if
the two are one point then one of the significands is odd. -/
theorem highest_le_lowest (h : Before scale fraction scale' fraction') :
    highest scale fraction ≤ lowest scale' fraction' ∧
      (highest scale fraction = lowest scale' fraction' →
        significand scale fraction % 2 = 0 → significand scale' fraction' % 2 = 0 → False) := by
  obtain hscale | ⟨rfl, hfraction⟩ := h
  · by_cases hfirst : max scale.val 1 < scale'.val
    · exact highest_le_lowest_of_scale hfirst
    · -- the numbers without their first bit and those with it share the first spacing
      refine highest_le_lowest_of_spacing ?_ ?_ ?_
      · rw [spacing, spacing]
        congr 2
        omega
      · have hm' : 2 ^ 52 ≤ significand scale' fraction' := lt_significand (by omega)
        have hm : significand scale fraction = fraction.val := by
          rw [significand, if_pos (by omega)]
        have := fraction.isLt
        simp only [Nat.pow_eq] at this
        omega
      · simp only [narrowBelow, Bool.and_eq_false_iff, decide_eq_false_iff_not]
        right
        omega
  · refine highest_le_lowest_of_spacing rfl ?_ ?_
    · simp only [significand]
      split <;> omega
    · simp only [narrowBelow, Bool.and_eq_false_iff, beq_eq_false_iff_ne]
      left
      omega

theorem reads_unique {x : ℚ} (h : Reads scale fraction x) (h' : Reads scale' fraction' x) :
    scale = scale' ∧ fraction = fraction' := by
  have hno {scale scale' : Fin 2047} {fraction fraction' : Fraction} (h : Reads scale fraction x)
      (h' : Reads scale' fraction' x) (hbefore : Before scale fraction scale' fraction') :
      False := by
    obtain ⟨hle, hodd⟩ := highest_le_lowest hbefore
    have hle : (highest scale fraction : ℚ) * quarter ≤ lowest scale' fraction' * quarter := by
      have := quarter_pos
      gcongr
    have hhigh : x = highest scale fraction * quarter :=
      le_antisymm h.le_highest (hle.trans h'.lowest_le)
    have hlow : x = lowest scale' fraction' * quarter :=
      le_antisymm (h.le_highest.trans hle) h'.lowest_le
    have heq : highest scale fraction = lowest scale' fraction' := by
      have := mul_right_cancel₀ quarter_pos.ne' (hhigh.symm.trans hlow)
      exact_mod_cast this
    exact hodd heq (h.even_of_highest hhigh) (h'.even_of_lowest hlow)
  by_contra hne
  obtain hbefore | hbefore := before_or_before hne
  · exact hno h h' hbefore
  · exact hno h' h hbefore

/-! ## The shortest decimal -/

theorem roundQuotient_eq_or (num den : Nat) :
    roundQuotient num den = num / den ∨ roundQuotient num den = num / den + 1 := by
  unfold roundQuotient
  dsimp only
  split
  · exact .inl rfl
  · exact .inr rfl
  · split
    · exact .inl rfl
    · exact .inr rfl

theorem reads_of_onGrid? {power : Int} {digits : Nat}
    (h : onGrid? scale fraction power = some digits) :
    Reads scale fraction (decimal digits power) := by
  simp only [onGrid?] at h
  split at h
  · next hfloor hnext =>
    cases h
    obtain heq | heq := roundQuotient_eq_or _ _
    · rw [heq]
      exact reads_of_readsBack hfloor
    · rw [heq]
      exact reads_of_readsBack hnext
  · next hfloor _ =>
    cases h
    exact reads_of_readsBack hfloor
  · next _ hnext =>
    cases h
    exact reads_of_readsBack hnext
  · cases h

/-- The exact value as a decimal. -/
theorem decimal_exact (m : Nat) (scale : Fin 2047) :
    decimal (m * Nat.pow 2 (exponent scale).toNat * Nat.pow 5 (-exponent scale).toNat)
      (min (exponent scale) 0) = (4 * m * spacing scale : Nat) * quarter := by
  have hquarters : (4 * m * spacing scale : Nat) * quarter = (m : ℚ) * 2 ^ exponent scale := by
    rw [← mul_two_zpow_exponent, zpow_sub₀ (by norm_num)]
    push_cast
    ring
  have hten : (10 : ℚ) ^ min (exponent scale) 0 =
      2 ^ min (exponent scale) 0 * 5 ^ min (exponent scale) 0 := by
    rw [← mul_zpow]
    norm_num
  have hfive : (5 : ℚ) ^ (-exponent scale).toNat * 5 ^ min (exponent scale) 0 = 1 := by
    rw [← zpow_natCast, ← zpow_add₀ (by norm_num)]
    convert zpow_zero (5 : ℚ) using 2
    omega
  have htwo : (2 : ℚ) ^ (exponent scale).toNat * 2 ^ min (exponent scale) 0 =
      2 ^ exponent scale := by
    rw [← zpow_natCast, ← zpow_add₀ (by norm_num)]
    congr 1
    omega
  rw [hquarters, decimal, hten, ← htwo]
  calc _ = (m : ℚ) * (2 ^ (exponent scale).toNat * 2 ^ min (exponent scale) 0) *
        (5 ^ (-exponent scale).toNat * 5 ^ min (exponent scale) 0) := by
        simp only [Nat.pow_eq]
        push_cast
        ring
    _ = (m : ℚ) * (2 ^ (exponent scale).toNat * 2 ^ min (exponent scale) 0) := by
        rw [hfive, mul_one]

theorem exists_shortest_eq (h : significand scale fraction ≠ 0) :
    ∃ digits power, Reads scale fraction (decimal digits power) ∧
      shortest scale fraction = (((toString digits).toList.reverse.dropWhile (· == '0')).reverse,
        (toString digits).toList.length + power) := by
  simp only [shortest]
  generalize hfound : (List.range 17).findSome? _ = found
  cases found with
  | none =>
    refine ⟨significand scale fraction * Nat.pow 2 (exponent scale).toNat *
      Nat.pow 5 (-exponent scale).toNat, min (exponent scale) 0, ?_, rfl⟩
    rw [decimal_exact]
    exact reads_exact h
  | some found =>
    obtain ⟨digits, power⟩ := found
    obtain ⟨n, _, hn⟩ := List.exists_of_findSome?_eq_some hfound
    obtain ⟨digits', hgrid, heq⟩ := Option.map_eq_some_iff.mp hn
    cases heq
    exact ⟨_, _, reads_of_onGrid? hgrid, rfl⟩

/-! ## Digits without zeros at the end -/

theorem exists_zeros (ds : List Char) : ∃ zeros : Nat,
    ds = (ds.reverse.dropWhile (· == '0')).reverse ++ List.replicate zeros '0' := by
  refine ⟨(ds.reverse.takeWhile (· == '0')).length, ?_⟩
  have hzeros : (ds.reverse.takeWhile (· == '0')).reverse =
      List.replicate (ds.reverse.takeWhile (· == '0')).length '0' := by
    refine List.eq_replicate_iff.mpr ⟨by simp, fun c hc => ?_⟩
    simpa using List.mem_takeWhile_imp (List.mem_reverse.mp hc)
  rw [← hzeros, ← List.reverse_append, List.takeWhile_append_dropWhile, List.reverse_reverse]

theorem decimal_add_zeros (ds : List Char) (zeros : Nat) (power : Int) :
    decimal (Text.readDigits (ds ++ List.replicate zeros '0')) power =
      decimal (Text.readDigits ds) (power + zeros) := by
  have hvalue : Text.readDigits (ds ++ List.replicate zeros '0') =
      Text.readDigits ds * 10 ^ zeros := by
    induction zeros with
    | zero => simp
    | succ zeros ih =>
      rw [List.replicate_succ', ← List.append_assoc, Text.readDigits_concat, ih, Nat.pow_succ]
      simp only [Text.digitValue, Nat.sub_self]
      ring
  rw [decimal, decimal, hvalue, zpow_add₀ (by norm_num), zpow_natCast]
  push_cast
  ring

/-- The digits that are written, with the place of their point, denote a decimal that reads
back. -/
structure Written (scale : Fin 2047) (fraction : Fraction) (ds : List Char) (point : Int) :
    Prop where
  digits : ∀ c ∈ ds, Text.isDigit c = true
  ne_nil : ds ≠ []
  reads : Reads scale fraction (decimal (Text.readDigits ds) (point - ds.length))

theorem pos_of_reads {x : ℚ} (hm : significand scale fraction ≠ 0)
    (h : Reads scale fraction x) : 0 < x := by
  have hlow : 0 < lowest scale fraction := by
    refine Nat.mul_pos ?_ spacing_pos
    unfold below
    split <;> omega
  have hlow : (0 : ℚ) < lowest scale fraction * quarter :=
    mul_pos (by exact_mod_cast hlow) quarter_pos
  exact hlow.trans_le h.lowest_le

theorem Written.of_reads {digits zeros : Nat} {power : Int} {ds : List Char}
    (hm : significand scale fraction ≠ 0) (h : Reads scale fraction (decimal digits power))
    (hdigits : Nat.toDigits 10 digits = ds ++ List.replicate zeros '0') :
    Written scale fraction ds ((Nat.toDigits 10 digits).length + power) := by
  have hlength : (Nat.toDigits 10 digits).length = ds.length + zeros := by simp [hdigits]
  have hvalue : decimal digits power =
      decimal (Text.readDigits ds) ((Nat.toDigits 10 digits).length + power - ds.length) := by
    conv_lhs => rw [← Text.readDigits_toDigits digits, hdigits, decimal_add_zeros]
    congr 1
    omega
  refine ⟨fun c hc => ?_, ?_, hvalue ▸ h⟩
  · exact Text.isDigit_of_mem_toDigits (n := digits) (by simp [hdigits, hc])
  · rintro rfl
    have := pos_of_reads hm h
    rw [hvalue] at this
    simp [decimal, Text.readDigits] at this

theorem written_shortest (h : significand scale fraction ≠ 0) :
    Written scale fraction (shortest scale fraction).1 (shortest scale fraction).2 := by
  obtain ⟨digits, power, hreads, hshortest⟩ := exists_shortest_eq h
  obtain ⟨zeros, hzeros⟩ := exists_zeros (Nat.toDigits 10 digits)
  rw [Nat.toString_eq_ofList_toDigits, String.toList_ofList] at hshortest
  rw [hshortest]
  exact .of_reads h hreads hzeros

/-! ## Layouts -/

/-- What a text without a sign denotes, if its digits are followed by no more than an exponent. -/
def valueOf? (body : List Char) : Option ℚ :=
  let front := body.takeWhile Text.isDigit
  let (back, rest) := Numeral.splitFraction (body.dropWhile Text.isDigit)
  (Numeral.exponent? rest).map fun power =>
    decimal (Text.readDigits (front ++ back)) (power - back.length)

/-- What may follow the digits of a text. -/
def EndsDigits : List Char → Prop
  | [] => True
  | c :: _ => Text.isDigit c = false

theorem takeWhile_digits {ds rest : List Char} (hds : ∀ c ∈ ds, Text.isDigit c = true)
    (hrest : EndsDigits rest) : (ds ++ rest).takeWhile Text.isDigit = ds := by
  rw [List.takeWhile_append_of_pos hds]
  cases rest with
  | nil => simp
  | cons c rest =>
    have hc : Text.isDigit c = false := hrest
    simp [hc]

theorem dropWhile_digits {ds rest : List Char} (hds : ∀ c ∈ ds, Text.isDigit c = true)
    (hrest : EndsDigits rest) : (ds ++ rest).dropWhile Text.isDigit = rest := by
  rw [List.dropWhile_append_of_pos hds]
  cases rest with
  | nil => rfl
  | cons c rest =>
    have hc : Text.isDigit c = false := hrest
    simp [hc]

theorem endsDigits_of_exponent {rest : List Char} (h : rest = [] ∨ ∃ s, rest = 'e' :: s) :
    EndsDigits rest := by
  obtain rfl | ⟨s, rfl⟩ := h
  · trivial
  · exact (rfl : Text.isDigit 'e' = false)

/-- A whole number, and perhaps an exponent. -/
theorem valueOf?_whole {front rest : List Char} (hfront : ∀ c ∈ front, Text.isDigit c = true)
    (hrest : rest = [] ∨ ∃ s, rest = 'e' :: s) : valueOf? (front ++ rest) =
      (Numeral.exponent? rest).map fun power => decimal (Text.readDigits front) power := by
  have hends := endsDigits_of_exponent hrest
  have hsplit : Numeral.splitFraction rest = ([], rest) := by
    obtain rfl | ⟨s, rfl⟩ := hrest
    · rfl
    · simp [Numeral.splitFraction]
  simp only [valueOf?, takeWhile_digits hfront hends, dropWhile_digits hfront hends, hsplit]
  simp

/-- Digits before and behind a point, and perhaps an exponent. -/
theorem valueOf?_point (front back rest : List Char)
    (hfront : ∀ c ∈ front, Text.isDigit c = true) (hback : ∀ c ∈ back, Text.isDigit c = true)
    (hrest : rest = [] ∨ ∃ s, rest = 'e' :: s) : valueOf? (front ++ '.' :: (back ++ rest)) =
      (Numeral.exponent? rest).map fun power =>
        decimal (Text.readDigits (front ++ back)) (power - back.length) := by
  have hpoint : EndsDigits ('.' :: (back ++ rest)) := (rfl : Text.isDigit '.' = false)
  have hends := endsDigits_of_exponent hrest
  simp only [valueOf?, takeWhile_digits hfront hpoint, dropWhile_digits hfront hpoint,
    Numeral.splitFraction, takeWhile_digits hback hends, dropWhile_digits hback hends]

/-- An exponent as it is written. -/
theorem exponent?_written (power : Int) :
    Numeral.exponent? ('e' :: (if power < 0 then '-' else '+') :: Nat.toDigits 10 power.natAbs) =
      some power := by
  have hall : (Nat.toDigits 10 power.natAbs).all Text.isDigit = true :=
    List.all_eq_true.mpr fun _ hc => Text.isDigit_of_mem_toDigits hc
  have hne : Nat.toDigits 10 power.natAbs ≠ [] := Nat.toDigits_ne_nil
  split
  · next hneg =>
    simp only [Numeral.exponent?, Numeral.splitSign, hall, hne, ne_eq, not_false_eq_true,
      and_self, true_or, if_true, Text.readDigits_toDigits]
    congr 1
    omega
  · next hneg =>
    simp only [Numeral.exponent?, Numeral.splitSign, hall, hne, ne_eq, not_false_eq_true,
      and_self, true_or, if_true, Bool.false_eq_true, if_false, Text.readDigits_toDigits]
    congr 1
    omega

/-- Digits with a point behind the first, unless it is the only one. -/
def mantissa : List Char → List Char
  | d :: d' :: rest => d :: '.' :: d' :: rest
  | ds => ds

theorem valueOf?_exponent {ds s : List Char} {power : Int} (hds : ∀ c ∈ ds, Text.isDigit c = true)
    (hne : ds ≠ []) (hs : Numeral.exponent? ('e' :: s) = some power) :
    valueOf? (mantissa ds ++ 'e' :: s) =
      some (decimal (Text.readDigits ds) (power + 1 - ds.length)) := by
  match ds, hne with
  | [d], _ =>
    rw [mantissa, valueOf?_whole hds (.inr ⟨s, rfl⟩), hs]
    · simp
    · simp
  | d :: d' :: rest, _ =>
    have hread := valueOf?_point [d] (d' :: rest) ('e' :: s)
      (fun c hc => hds c (by simp_all)) (fun c hc => hds c (List.mem_cons_of_mem _ hc))
      (.inr ⟨s, rfl⟩)
    refine hread.trans ?_
    rw [hs]
    simp only [Option.map_some, List.length_cons, List.singleton_append]
    congr 2
    omega

theorem isDigit_of_mem_zeros {zeros : Nat} {c : Char} (h : c ∈ List.replicate zeros '0') :
    Text.isDigit c = true := by
  rw [List.eq_of_mem_replicate h]
  rfl

/-- Zeros behind the digits shift the point to the right. -/
theorem valueOf?_append_zeros {ds : List Char} (hds : ∀ c ∈ ds, Text.isDigit c = true)
    (zeros : Nat) : valueOf? (ds ++ List.replicate zeros '0') =
      some (decimal (Text.readDigits ds) zeros) := by
  have hall : ∀ c ∈ ds ++ List.replicate zeros '0', Text.isDigit c = true :=
    List.forall_mem_append.mpr ⟨hds, fun _ => isDigit_of_mem_zeros⟩
  have hread := valueOf?_whole hall (.inl rfl)
  rw [List.append_nil] at hread
  rw [hread]
  simp only [Numeral.exponent?, Option.map_some, decimal_add_zeros, Int.zero_add]

/-- A point between the digits. -/
theorem valueOf?_take_drop {ds : List Char} (hds : ∀ c ∈ ds, Text.isDigit c = true) {place : Nat}
    (hplace : place ≤ ds.length) : valueOf? (ds.take place ++ '.' :: ds.drop place) =
      some (decimal (Text.readDigits ds) (place - ds.length)) := by
  have hread := valueOf?_point (ds.take place) (ds.drop place) []
    (fun c hc => hds c (List.mem_of_mem_take hc)) (fun c hc => hds c (List.mem_of_mem_drop hc))
    (.inl rfl)
  rw [List.append_nil] at hread
  rw [hread, List.take_append_drop]
  simp only [Numeral.exponent?, Option.map_some, List.length_drop]
  congr 2
  omega

/-- A point and zeros before the digits. -/
theorem valueOf?_zeros_append {ds : List Char} (hds : ∀ c ∈ ds, Text.isDigit c = true)
    (zeros : Nat) : valueOf? ('0' :: '.' :: List.replicate zeros '0' ++ ds) =
      some (decimal (Text.readDigits ds) (-zeros - ds.length)) := by
  have hall : ∀ c ∈ List.replicate zeros '0' ++ ds, Text.isDigit c = true :=
    List.forall_mem_append.mpr ⟨fun _ => isDigit_of_mem_zeros, hds⟩
  have hread := valueOf?_point ['0'] (List.replicate zeros '0' ++ ds) []
    (by simp [Text.isDigit]) hall (.inl rfl)
  rw [List.append_nil] at hread
  have hzero : ['0'] ++ (List.replicate zeros '0' ++ ds) =
      List.replicate (zeros + 1) '0' ++ ds := by
    rw [List.replicate_succ, List.singleton_append, List.cons_append]
  refine hread.trans ?_
  rw [hzero, Text.readDigits_replicate_append]
  simp only [Numeral.exponent?, Option.map_some, List.length_append, List.length_replicate]
  congr 2
  omega

/-- Whichever way digits are laid out, the text denotes what they do. -/
theorem valueOf?_layout {ds : List Char} (point : Int)
    (hds : ∀ c ∈ ds, Text.isDigit c = true) (hne : ds ≠ []) : valueOf? (layout ds point).toList =
      some (decimal (Text.readDigits ds) (point - ds.length)) := by
  unfold layout
  dsimp only
  split
  · next hwhole =>
    rw [String.toList_ofList, valueOf?_append_zeros hds]
    congr 2
    omega
  · split
    · next hinside =>
      rw [String.toList_ofList, valueOf?_take_drop hds (by omega)]
      congr 2
      omega
    · split
      · next hzeros =>
        rw [String.toList_ofList, valueOf?_zeros_append hds]
        congr 2
        omega
      · have hread := valueOf?_exponent hds hne (exponent?_written (point - 1))
        rw [show point - 1 + 1 - (ds.length : Int) = point - ds.length by omega] at hread
        rw [← hread, Nat.toString_eq_ofList_toDigits]
        simp only [String.toList_append, String.toList_ofList, List.append_assoc]
        congr 2
        · obtain ⟨d, ds, rfl⟩ := List.exists_cons_of_ne_nil hne
          cases ds <;> rfl
        · split <;> rfl

/-! ## Texts -/

/-- Whether a text has a minus in front, and what the rest denotes. -/
def signedValueOf? : List Char → Bool × Option ℚ
  | '-' :: body => (true, valueOf? body)
  | body => (false, valueOf? body)

/-- What denotes something does not start with a minus. -/
theorem signedValueOf?_of_valueOf? {body : List Char} {x : ℚ} (h : valueOf? body = some x) :
    signedValueOf? body = (false, some x) := by
  unfold signedValueOf?
  split
  · simp [valueOf?, Text.isDigit, Numeral.splitFraction, Numeral.exponent?] at h
  · rw [h]

theorem isZero_finite_iff {negative : Bool} :
    (finite negative scale fraction).isZero = true ↔ significand scale fraction = 0 :=
  beq_iff_eq

theorem signedValueOf?_text_zero {n : Number} (h : n.isZero = true) :
    signedValueOf? n.text.toList = (false, some 0) := by
  cases n with
  | finite negative scale fraction =>
    simp only [isZero, beq_iff_eq] at h
    have hread : valueOf? "0".toList = some 0 := by
      simp [valueOf?, Text.isDigit, Numeral.splitFraction, Numeral.exponent?, decimal,
        Text.readDigits, Text.digitValue]
    simp only [text, if_pos h]
    exact signedValueOf?_of_valueOf? hread
  | _ => cases h

theorem signedValueOf?_text_finite (negative : Bool) (h : significand scale fraction ≠ 0) :
    ∃ x, Reads scale fraction x ∧ signedValueOf? (text (.finite negative scale fraction)).toList =
      (negative, some x) := by
  obtain ⟨hdigits, hne, hreads⟩ := written_shortest h
  refine ⟨_, hreads, ?_⟩
  have hread := valueOf?_layout (shortest scale fraction).2 hdigits hne
  cases negative with
  | true =>
    simp only [text, if_neg h, if_true, String.toList_append, signedValueOf?, ← hread]
    rfl
  | false =>
    simp only [text, if_neg h, Bool.false_eq_true, if_false, String.empty_append]
    exact signedValueOf?_of_valueOf? hread

/-- Equal up to the sign of zero. -/
def Resembles (n m : Number) : Prop := n = m ∨ n.isZero = true ∧ m.isZero = true

theorem Resembles.refl (n : Number) : n.Resembles n := .inl rfl

/-- What is not a number of its own, and what is beyond all numbers, denotes nothing. -/
theorem signedValueOf?_text_of_not_isFinite {n : Number} (h : n.isFinite = false) :
    (signedValueOf? n.text.toList).2 = none := by
  cases n with
  | nan => rfl
  | infinite negative => cases negative <;> rfl
  | finite => cases h

theorem exists_signedValueOf?_text_of_isFinite {n : Number} (h : n.isFinite = true) :
    ∃ x, (signedValueOf? n.text.toList).2 = some x := by
  cases n with
  | finite negative scale fraction =>
    by_cases hzero : significand scale fraction = 0
    · exact ⟨0, by rw [signedValueOf?_text_zero (isZero_finite_iff.mpr hzero)]⟩
    · obtain ⟨x, _, hx⟩ := signedValueOf?_text_finite negative hzero
      exact ⟨x, by rw [hx]⟩
  | _ => cases h

theorem eq_of_text_eq_of_not_isFinite {n m : Number} (hn : n.isFinite = false)
    (hm : m.isFinite = false) (h : n.text = m.text) : n = m := by
  cases n with
  | nan =>
    cases m with
    | nan => rfl
    | infinite negative => cases negative <;> simp [text] at h
    | finite => cases hm
  | infinite negative =>
    cases m with
    | nan => cases negative <;> simp [text] at h
    | infinite negative' => cases negative <;> cases negative' <;> simp [text] at h ⊢
    | finite => cases hm
  | finite => cases hn

theorem resembles_of_text_eq_of_isFinite {n m : Number} (hn : n.isFinite = true)
    (hm : m.isFinite = true) (h : n.text = m.text) : n.Resembles m := by
  have hvalue := congrArg (fun s => signedValueOf? s.toList) h
  cases n with
  | finite negative scale fraction =>
    cases m with
    | finite negative' scale' fraction' =>
      by_cases hzero : significand scale fraction = 0
      · have hn : (finite negative scale fraction).isZero = true :=
          isZero_finite_iff.mpr hzero
        by_cases hzero' : significand scale' fraction' = 0
        · exact .inr ⟨hn, isZero_finite_iff.mpr hzero'⟩
        · obtain ⟨x, hreads, hx⟩ := signedValueOf?_text_finite negative' hzero'
          rw [signedValueOf?_text_zero hn, hx] at hvalue
          cases hvalue
          exact absurd (pos_of_reads hzero' hreads) (lt_irrefl _)
      · obtain ⟨x, hreads, hx⟩ := signedValueOf?_text_finite negative hzero
        by_cases hzero' : significand scale' fraction' = 0
        · have hm : (finite negative' scale' fraction').isZero = true :=
            isZero_finite_iff.mpr hzero'
          rw [signedValueOf?_text_zero hm, hx] at hvalue
          cases hvalue
          exact absurd (pos_of_reads hzero hreads) (lt_irrefl _)
        · obtain ⟨x', hreads', hx'⟩ := signedValueOf?_text_finite negative' hzero'
          rw [hx, hx'] at hvalue
          cases hvalue
          obtain ⟨rfl, rfl⟩ := reads_unique hreads hreads'
          exact .refl _
    | _ => cases hm
  | _ => cases hn

/-- The text of a number tells it from all others but the zero of the other sign. -/
theorem resembles_of_text_eq {n m : Number} (h : n.text = m.text) : n.Resembles m := by
  have hvalue := congrArg (fun s => (signedValueOf? s.toList).2) h
  cases hn : n.isFinite with
  | true =>
    cases hm : m.isFinite with
    | true => exact resembles_of_text_eq_of_isFinite hn hm h
    | false =>
      obtain ⟨x, hx⟩ := exists_signedValueOf?_text_of_isFinite hn
      simp [hx, signedValueOf?_text_of_not_isFinite hm] at hvalue
  | false =>
    cases hm : m.isFinite with
    | true =>
      obtain ⟨x, hx⟩ := exists_signedValueOf?_text_of_isFinite hm
      simp [hx, signedValueOf?_text_of_not_isFinite hn] at hvalue
    | false => exact .inl (eq_of_text_eq_of_not_isFinite hn hm h)

theorem text_eq_of_resembles {n m : Number} (h : n.Resembles m) : n.text = m.text := by
  obtain rfl | ⟨hn, hm⟩ := h
  · rfl
  · have hzero {n : Number} (h : n.isZero = true) : n.text = "0" := by
      cases n with
      | finite => exact if_pos (isZero_finite_iff.mp h)
      | _ => cases h
    rw [hzero hn, hzero hm]

/-! ## Characters -/

/-- The characters that texts of numbers are made of. -/
def isNumberChar (c : Char) : Bool := Text.isDigit c || ".+-eNaInfity".toList.contains c

theorem isNumberChar_of_isDigit {c : Char} (h : Text.isDigit c = true) : isNumberChar c = true := by
  simp [isNumberChar, h]

theorem isNumberChar_replicate (zeros : Nat) :
    ∀ c ∈ List.replicate zeros '0', isNumberChar c = true := fun _ hc =>
  isNumberChar_of_isDigit (isDigit_of_mem_zeros hc)

theorem isNumberChar_mantissa {ds : List Char} (hds : ∀ c ∈ ds, isNumberChar c = true) :
    ∀ c ∈ mantissa ds, isNumberChar c = true := by
  unfold mantissa
  split
  · simp only [List.forall_mem_cons] at hds ⊢
    exact ⟨hds.1, by decide, hds.2⟩
  · exact hds

theorem isNumberChar_layout {ds : List Char} {point : Int}
    (hds : ∀ c ∈ ds, Text.isDigit c = true) :
    ∀ c ∈ (layout ds point).toList, isNumberChar c = true := by
  have hds : ∀ c ∈ ds, isNumberChar c = true := fun c hc => isNumberChar_of_isDigit (hds c hc)
  have hpower : ∀ c ∈ Nat.toDigits 10 (point - 1).natAbs, isNumberChar c = true := fun c hc =>
    isNumberChar_of_isDigit (Text.isDigit_of_mem_toDigits hc)
  unfold layout
  dsimp only
  split
  · rw [String.toList_ofList, List.forall_mem_append]
    exact ⟨hds, isNumberChar_replicate _⟩
  · split
    · rw [String.toList_ofList, List.forall_mem_append, List.forall_mem_cons]
      exact ⟨fun c hc => hds c (List.mem_of_mem_take hc), by decide,
        fun c hc => hds c (List.mem_of_mem_drop hc)⟩
    · split
      · simp only [String.toList_ofList, List.cons_append, List.forall_mem_cons,
          List.forall_mem_append]
        exact ⟨by decide, by decide, isNumberChar_replicate _, hds⟩
      · have hmantissa := isNumberChar_mantissa hds
        rw [Nat.toString_eq_ofList_toDigits]
        simp only [String.toList_append, String.toList_ofList, List.forall_mem_append]
        refine ⟨⟨?_, ?_⟩, hpower⟩
        · match ds with
          | [] | [_] | _ :: _ :: _ => exact hmantissa
        · split <;> exact List.all_eq_true.mp (by decide)

theorem isNumberChar_of_mem_text {n : Number} {c : Char} (h : c ∈ n.text.toList) :
    isNumberChar c = true := by
  suffices hall : ∀ c ∈ n.text.toList, isNumberChar c = true from hall c h
  cases n with
  | nan => exact List.all_eq_true.mp (by decide)
  | infinite negative => cases negative <;> exact List.all_eq_true.mp (by decide)
  | finite negative scale fraction =>
    simp only [text]
    split
    · exact List.all_eq_true.mp (by decide)
    · next hzero =>
      rw [String.toList_append, List.forall_mem_append]
      refine ⟨?_, isNumberChar_layout (written_shortest hzero).digits⟩
      cases negative <;> exact List.all_eq_true.mp (by decide)

theorem text_ne_empty (n : Number) : n.text.toList ≠ [] := by
  cases n with
  | nan => decide
  | infinite negative => cases negative <;> decide
  | finite negative scale fraction =>
    by_cases hzero : significand scale fraction = 0
    · simp [text, hzero]
    · obtain ⟨x, hreads, hx⟩ := signedValueOf?_text_finite negative hzero
      intro hempty
      rw [hempty] at hx
      have hnone : signedValueOf? [] = (false, some 0) := by
        simp [signedValueOf?, valueOf?, Numeral.splitFraction, Numeral.exponent?, decimal,
          Text.readDigits]
      rw [hnone] at hx
      cases hx
      exact absurd (pos_of_reads hzero hreads) (lt_irrefl _)

end RowFilter.Number
