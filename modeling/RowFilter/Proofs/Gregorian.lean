import Mathlib.Tactic.NormNum
import RowFilter.Calendar

/-!
# Days of the Gregorian calendar

A year is as long as its months, and its second month has one day more in a leap year. Reading
a day off its count and counting it again are inverse to each other, for every count and for
every date that the calendar has. A date that the calendar does not have rolls over into another
one. Counting agrees with adding up the lengths of years and months.

Both ways go through years that start in March. In such a year the leap day is the last one, so
every month starts on the same day of every year, and a day is told by its year and its number
in the year.
-/

namespace RowFilter.Date

/-! ## The calendar -/

/-- Every fourth year is a leap year, but only every fourth of the full centuries. -/
def isLeap (year : Int) : Bool :=
  year % 4 = 0 && (year % 100 ≠ 0 || year % 400 = 0)

/-- The length of a month. There are no days outside the twelve months. -/
def daysIn (year month : Int) : Int :=
  if month = 2 then if isLeap year then 29 else 28
  else if month = 4 ∨ month = 6 ∨ month = 9 ∨ month = 11 then 30
  else if 1 ≤ month ∧ month ≤ 12 then 31
  else 0

theorem ext {d d' : Date} (hyear : d.year = d'.year) (hmonth : d.month = d'.month)
    (hday : d.day = d'.day) : d = d' := by
  cases d
  cases d'
  simp_all

/-- The calendar has this date. -/
structure Valid (d : Date) : Prop where
  day_pos : 1 ≤ d.day
  day_le : d.day ≤ daysIn d.year d.month

instance (d : Date) : Decidable d.Valid :=
  decidable_of_iff (1 ≤ d.day ∧ d.day ≤ daysIn d.year d.month)
    ⟨fun h => ⟨h.1, h.2⟩, fun h => ⟨h.day_pos, h.day_le⟩⟩

/-- Days before this year, from year zero on. -/
def daysBeforeYear : Nat → Int
  | 0 => 0
  | year + 1 => daysBeforeYear year + if isLeap year then 366 else 365

/-- Days of the year before this month. -/
def daysBeforeMonth (year : Int) : Nat → Int
  | 0 => 0
  | month + 1 => daysBeforeMonth year month + daysIn year month

/-- The number of a day, by the lengths of the years and months before it. -/
def dayNumber (year month day : Nat) : Int :=
  daysBeforeYear year + daysBeforeMonth year month + (day - 1) - daysBeforeYear 1970

theorem isLeap_iff {year : Int} :
    isLeap year = true ↔ year % 4 = 0 ∧ (year % 100 ≠ 0 ∨ year % 400 = 0) := by
  simp [isLeap]

theorem daysIn_le (year month : Int) : daysIn year month ≤ 31 := by
  unfold daysIn
  repeat' split
  all_goals decide

theorem Valid.month_bounds {d : Date} (h : d.Valid) : 1 ≤ d.month ∧ d.month ≤ 12 := by
  have hdays : 1 ≤ daysIn d.year d.month := Int.le_trans h.day_pos h.day_le
  unfold daysIn at hdays
  split at hdays
  · omega
  · split at hdays
    · omega
    · split at hdays
      · assumption
      · omega

theorem Valid.day_le_31 {d : Date} (h : d.Valid) : d.day ≤ 31 :=
  Int.le_trans h.day_le (daysIn_le _ _)

/-! ## Years from March on -/

/-- A day of the year from the March of `year` on: the last one only before a leap day. -/
structure InYear (year day : Int) : Prop where
  day_nonneg : 0 ≤ day
  day_le : day ≤ 365
  isLeap_of_last : day = 365 → isLeap (year + 1) = true

/-- Days before the March of this year, from the March of year zero on. -/
def elapsed (year : Int) : Int := 365 * year + year / 4 - year / 100 + year / 400

/-- The date of a day of a year from March on. -/
def ofMarch (year day : Int) : Date :=
  let month := (5 * day + 2) / 153
  let dayOfMonth := day - (153 * month + 2) / 5 + 1
  if month < 10 then ⟨year, month + 3, dayOfMonth⟩ else ⟨year + 1, month - 9, dayOfMonth⟩

/-- The year from March on that a date is in. -/
def marchYear (d : Date) : Int := if d.month ≤ 2 then d.year - 1 else d.year

/-- The number of a date in its year from March on. -/
def marchDay (d : Date) : Int :=
  (153 * (if d.month ≤ 2 then d.month + 9 else d.month - 3) + 2) / 5 + d.day - 1

/-- A day of an era by its century, its four years, its year and its day. Only the last century
has a leap day at its end. -/
structure Parts (dayOfEra century four year day : Int) : Prop where
  century_bounds : 0 ≤ century ∧ century ≤ 3
  four_bounds : 0 ≤ four ∧ four ≤ 24
  year_bounds : 0 ≤ year ∧ year ≤ 3
  day_bounds : 0 ≤ day ∧ day ≤ 365
  last : day = 365 → year = 3 ∧ (four = 24 → century = 3)
  sum : dayOfEra = 36524 * century + 1461 * four + 365 * year + day

theorem exists_parts (dayOfEra : Int) (h : 0 ≤ dayOfEra ∧ dayOfEra < daysPerEra) :
    ∃ century four year day, Parts dayOfEra century four year day := by
  unfold daysPerEra at h
  -- the day that a leap year has more stays with the part before it
  obtain ⟨century, hcentury⟩ : ∃ c, c = min (dayOfEra / 36524) 3 := ⟨_, rfl⟩
  obtain ⟨inCentury, hinCentury⟩ : ∃ n, n = dayOfEra - 36524 * century := ⟨_, rfl⟩
  have : 0 ≤ inCentury ∧ inCentury ≤ 36524 ∧ (inCentury = 36524 → century = 3) := by omega
  obtain ⟨four, hfour⟩ : ∃ q, q = inCentury / 1461 := ⟨_, rfl⟩
  obtain ⟨inFour, hinFour⟩ : ∃ n, n = inCentury - 1461 * four := ⟨_, rfl⟩
  have : 0 ≤ inFour ∧ inFour ≤ 1460 ∧ (four = 24 → inFour = 1460 → century = 3) := by omega
  obtain ⟨year, hyear⟩ : ∃ r, r = min (inFour / 365) 3 := ⟨_, rfl⟩
  refine ⟨century, four, year, inFour - 365 * year, ?_⟩
  constructor <;> omega

namespace Parts

variable {dayOfEra century four year day : Int}

/-- The formula for the year of a day of an era. -/
theorem yearOfEra_eq (h : Parts dayOfEra century four year day) :
    (dayOfEra - dayOfEra / 1460 + dayOfEra / 36524 - dayOfEra / 146096) / 365 =
      100 * century + 4 * four + year := by
  obtain ⟨hcentury, hfour, hyear, hday, hlast, hsum⟩ := h
  have hcenturies : dayOfEra / 36524 - dayOfEra / 146096 = century := by
    have hrest : 1461 * four + 365 * year + day < 36524 ∨
        century = 3 ∧ 1461 * four + 365 * year + day = 36524 := by omega
    obtain ⟨rest, hdef⟩ : ∃ n, n = 1461 * four + 365 * year + day := ⟨_, rfl⟩
    have hnonneg : 0 ≤ rest := by omega
    have hsum : dayOfEra = 36524 * century + rest := by omega
    rw [← hdef] at hrest
    clear hdef hlast
    omega
  -- four years of 365 days each are over one day before the leap day
  have hlate : (24 * century + four + 365 * year + day) / 1460 =
      if 1460 ≤ 24 * century + four + 365 * year + day then 1 else 0 := by
    split <;> omega
  have hfours : dayOfEra / 1460 = 25 * century + four +
      if 1460 ≤ 24 * century + four + 365 * year + day then 1 else 0 := by
    rw [← hlate]
    omega
  have hdays : dayOfEra - dayOfEra / 1460 + dayOfEra / 36524 - dayOfEra / 146096 =
      365 * (100 * century + 4 * four + year) +
        (day - if 1460 ≤ 24 * century + four + 365 * year + day then 1 else 0) := by
    omega
  rw [hdays]
  split <;> omega

/-- The day is a day of its year, in whichever era. -/
theorem inYear (h : Parts dayOfEra century four year day) (era : Int) :
    InYear (100 * century + 4 * four + year + era * 400) day := by
  obtain ⟨hcentury, hfour, hyear, hday, hlast, _⟩ := h
  refine ⟨hday.1, hday.2, fun heq => isLeap_iff.mpr ?_⟩
  have := hlast heq
  omega

theorem dayOfEra_eq (h : Parts dayOfEra century four year day) (era : Int) :
    era * daysPerEra + dayOfEra = elapsed (100 * century + 4 * four + year + era * 400) + day := by
  obtain ⟨hcentury, hfour, hyear, _, _, hsum⟩ := h
  unfold elapsed daysPerEra
  omega

theorem dayOfYear_eq (h : Parts dayOfEra century four year day) :
    dayOfEra - (365 * (100 * century + 4 * four + year) +
      (100 * century + 4 * four + year) / 4 - (100 * century + 4 * four + year) / 100) = day := by
  obtain ⟨hcentury, hfour, hyear, _, _, hsum⟩ := h
  omega

end Parts

/-- Every count is a day of a year, and its date is the date of that day. -/
theorem exists_ofDay_eq (n : Int) :
    ∃ year day, InYear year day ∧ n = elapsed year + day - dayZero ∧
      ofDay n = ofMarch year day := by
  have hpos : (0 : Int) ≤ daysPerEra := by decide
  obtain ⟨century, four, year, day, h⟩ := exists_parts ((n + dayZero) % daysPerEra)
    ⟨Int.emod_nonneg _ (by decide), Int.emod_lt_of_pos _ (by decide)⟩
  have hn : (n + dayZero) / daysPerEra * daysPerEra + (n + dayZero) % daysPerEra = n + dayZero := by
    rw [Int.mul_comm]
    exact Int.mul_ediv_add_emod _ _
  refine ⟨_, day, h.inYear ((n + dayZero) / daysPerEra), ?_, ?_⟩
  · rw [← h.dayOfEra_eq, hn]
    omega
  · simp only [ofDay, Int.fdiv_eq_ediv_of_nonneg _ hpos, Int.fmod_eq_emod_of_nonneg _ hpos,
      h.yearOfEra_eq, h.dayOfYear_eq, ofMarch]

/-! ## Dates and days of a year -/

theorem marchYear_ofMarch {year day : Int} (h : InYear year day) :
    marchYear (ofMarch year day) = year := by
  obtain ⟨hnonneg, hle, _⟩ := h
  simp only [marchYear, ofMarch]
  split
  · rw [if_neg (by simp only; omega)]
  · rw [if_pos (by simp only; omega)]
    simp

theorem marchDay_ofMarch {year day : Int} (h : InYear year day) :
    marchDay (ofMarch year day) = day := by
  obtain ⟨hnonneg, hle, _⟩ := h
  simp only [marchDay, ofMarch]
  split
  · rw [if_neg (by simp only; omega)]
    simp only
    omega
  · rw [if_pos (by simp only; omega)]
    simp only
    omega

theorem valid_ofMarch {year day : Int} (h : InYear year day) : (ofMarch year day).Valid := by
  obtain ⟨hnonneg, hle, hlast⟩ := h
  simp only [ofMarch]
  constructor
  · split <;> simp only <;> omega
  · split
    · simp only [daysIn]
      rw [if_neg (by omega)]
      split <;> omega
    · simp only [daysIn]
      split
      · -- February ends on day 365 in a leap year and one day earlier in all others
        cases hleap : isLeap (year + 1) with
        | true =>
          simp only [if_true]
          omega
        | false =>
          have : day ≠ 365 := fun heq => by simp [hlast heq] at hleap
          simp only [Bool.false_eq_true, if_false]
          omega
      · rw [if_neg (by omega)]
        split <;> omega

theorem Valid.ofMarch_eq {d : Date} (h : d.Valid) : ofMarch (marchYear d) (marchDay d) = d := by
  obtain ⟨hlow, hhigh⟩ := h.month_bounds
  obtain ⟨year, month, day⟩ := d
  obtain ⟨hpos, hle⟩ := h
  simp only [daysIn] at hlow hhigh hpos hle
  have hmonth : (5 * marchDay ⟨year, month, day⟩ + 2) / 153 =
      if month ≤ 2 then month + 9 else month - 3 := by
    simp only [marchDay]
    obtain rfl | rfl | rfl | rfl | rfl | rfl | rfl | rfl | rfl | rfl | rfl | rfl :
        month = 1 ∨ month = 2 ∨ month = 3 ∨ month = 4 ∨ month = 5 ∨ month = 6 ∨ month = 7 ∨
          month = 8 ∨ month = 9 ∨ month = 10 ∨ month = 11 ∨ month = 12 := by omega
    all_goals norm_num at hle ⊢; omega
  simp only [ofMarch, hmonth]
  simp only [marchDay, marchYear]
  split
  · rw [if_neg (by omega)]
    congr 1 <;> omega
  · rw [if_pos (by omega)]
    congr 1 <;> omega

theorem Valid.inYear {d : Date} (h : d.Valid) : InYear (marchYear d) (marchDay d) := by
  obtain ⟨hlow, hhigh⟩ := h.month_bounds
  obtain ⟨year, month, day⟩ := d
  obtain ⟨hpos, hle⟩ := h
  simp only [daysIn] at hlow hhigh hpos hle
  constructor
  · simp only [marchDay]
    split <;> omega
  · simp only [marchDay]
    split at hle
    · split at hle <;> split <;> omega
    · split <;> omega
  · intro hlast
    simp only [marchDay, marchYear] at hlast ⊢
    have hfebruary : month = 2 ∧ day = 29 := by
      split at hle
      · split at hle <;> split at hlast <;> omega
      · split at hlast <;> split at hle <;> omega
    obtain ⟨rfl, rfl⟩ := hfebruary
    cases hleap : isLeap year with
    | true => simpa using hleap
    | false => simp [hleap] at hle

theorem toDay_eq {d : Date} (h : 1 ≤ d.month ∧ d.month ≤ 12) :
    toDay d = elapsed (marchYear d) + marchDay d - dayZero := by
  obtain ⟨year, month, day⟩ := d
  obtain ⟨hlow, hhigh⟩ : 1 ≤ month ∧ month ≤ 12 := h
  have hyear : (month - 1) / 12 = 0 := by omega
  have hmonth : (month - 1) % 12 = month - 1 := by omega
  simp only [toDay, elapsed, marchYear, marchDay, daysPerEra,
    Int.fdiv_eq_ediv_of_nonneg _ (show (0 : Int) ≤ 12 by decide),
    Int.fmod_eq_emod_of_nonneg _ (show (0 : Int) ≤ 12 by decide),
    Int.fdiv_eq_ediv_of_nonneg _ (show (0 : Int) ≤ 400 by decide),
    Int.fmod_eq_emod_of_nonneg _ (show (0 : Int) ≤ 400 by decide), hyear, hmonth]
  by_cases h : month ≤ 2
  · rw [if_pos (by omega), if_pos (by omega), if_pos h, if_pos h]
    omega
  · rw [if_neg (by omega), if_neg (by omega), if_neg h, if_neg h]
    omega

/-! ## Counting and reading back -/

theorem elapsed_mono {year year' : Int} (h : year < year') :
    elapsed (year + 1) ≤ elapsed year' := by
  unfold elapsed
  omega

theorem InYear.lt_elapsed_succ {year day : Int} (h : InYear year day) :
    day < elapsed (year + 1) - elapsed year := by
  obtain ⟨_, hle, hlast⟩ := h
  simp only [isLeap_iff] at hlast
  unfold elapsed
  omega

/-- A count is the count of one day only. -/
theorem InYear.unique {year day year' day' : Int} (h : InYear year day) (h' : InYear year' day')
    (heq : elapsed year + day = elapsed year' + day') : year = year' ∧ day = day' := by
  have hlt := h.lt_elapsed_succ
  have hlt' := h'.lt_elapsed_succ
  have hnonneg := h.day_nonneg
  have hnonneg' := h'.day_nonneg
  have hyear : year = year' := by
    obtain hyears | hyears | hyears : year < year' ∨ year' < year ∨ year = year' := by omega
    · have := elapsed_mono hyears
      omega
    · have := elapsed_mono hyears
      omega
    · exact hyears
  subst hyear
  omega

theorem ofDay_elapsed {year day : Int} (h : InYear year day) :
    ofDay (elapsed year + day - dayZero) = ofMarch year day := by
  obtain ⟨year', day', h', heq, hdate⟩ := exists_ofDay_eq (elapsed year + day - dayZero)
  obtain ⟨rfl, rfl⟩ := h.unique h' (by omega)
  exact hdate

theorem valid_ofDay (n : Int) : (ofDay n).Valid := by
  obtain ⟨year, day, h, _, hdate⟩ := exists_ofDay_eq n
  rw [hdate]
  exact valid_ofMarch h

/-- Reading a day off its count and counting it again gives the count. -/
theorem toDay_ofDay (n : Int) : toDay (ofDay n) = n := by
  obtain ⟨year, day, h, rfl, hdate⟩ := exists_ofDay_eq n
  rw [hdate, toDay_eq (valid_ofMarch h).month_bounds, marchYear_ofMarch h, marchDay_ofMarch h]

/-- A date comes back from its count just when the calendar has it. -/
theorem ofDay_toDay_iff {d : Date} : ofDay (toDay d) = d ↔ d.Valid := by
  constructor
  · intro h
    rw [← h]
    exact valid_ofDay _
  · intro h
    rw [toDay_eq h.month_bounds, ofDay_elapsed h.inYear, h.ofMarch_eq]

theorem ofDay_injective {n m : Int} (h : ofDay n = ofDay m) : n = m := by
  rw [← toDay_ofDay n, h, toDay_ofDay]

/-! ## Counting by lengths -/

theorem daysBeforeYear_eq (year : Nat) :
    daysBeforeYear year = 365 * year + (year + 3) / 4 - (year + 99) / 100 + (year + 399) / 400 := by
  induction year with
  | zero => rfl
  | succ year ih =>
    rw [daysBeforeYear, ih]
    cases hleap : isLeap (year : Int) with
    | true =>
      rw [isLeap_iff] at hleap
      simp only [if_true]
      omega
    | false =>
      rw [← Bool.not_eq_true, isLeap_iff] at hleap
      simp only [Bool.false_eq_true, if_false]
      omega

theorem daysBeforeMonth_eq (year : Int) {month : Nat} (h : 1 ≤ month ∧ month ≤ 12) :
    daysBeforeMonth year month = if month ≤ 2 then 31 * ((month : Int) - 1)
      else (153 * ((month : Int) - 3) + 2) / 5 + if isLeap year then 60 else 59 := by
  obtain ⟨hlow, hhigh⟩ := h
  match month, hlow, hhigh with
  | 1, _, _ | 2, _, _ | 3, _, _ | 4, _, _ | 5, _, _ | 6, _, _ | 7, _, _ | 8, _, _ | 9, _, _
  | 10, _, _ | 11, _, _ | 12, _, _ =>
    cases hleap : isLeap year <;> simp [daysBeforeMonth, daysIn, hleap]

/-- Counting agrees with adding up the lengths of the years and months before a date. -/
theorem toDay_eq_dayNumber {year month day : Nat} (h : Date.Valid ⟨year, month, day⟩) :
    toDay ⟨year, month, day⟩ = dayNumber year month day := by
  have hmonth : 1 ≤ month ∧ month ≤ 12 := by
    have := h.month_bounds
    simp only at this
    omega
  rw [toDay_eq h.month_bounds, dayNumber, daysBeforeYear_eq, daysBeforeYear_eq,
    daysBeforeMonth_eq year hmonth]
  simp only [elapsed, marchYear, marchDay, dayZero]
  cases hleap : isLeap (year : Int) with
  | true =>
    rw [isLeap_iff] at hleap
    simp only [if_true]
    split <;> split <;> omega
  | false =>
    rw [← Bool.not_eq_true, isLeap_iff] at hleap
    simp only [Bool.false_eq_true, if_false]
    split <;> split <;> omega

example : dayNumber 2000 2 29 = 11016 := by decide +kernel

end RowFilter.Date
