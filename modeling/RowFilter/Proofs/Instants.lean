import RowFilter.Predicate.Render
import RowFilter.Proofs.Coercions
import RowFilter.Proofs.FixedForms
import RowFilter.Proofs.Gregorian

/-!
# Texts of days and instants

A text becomes an instant when it has the form of a day, or of a day and a time, and names a day
of the calendar from the year 100 on and a time of day. It then becomes the instant that it names,
and what it became is written as the text was. So no two texts become the same instant or time.
-/

namespace RowFilter

open Text (Form)

namespace Instant

variable {year month day hour minute second : Nat}

theorem isTimeOfDay_iff : isTimeOfDay hour minute second = true ↔
    hour ≤ 23 ∧ minute ≤ 59 ∧ second ≤ 59 := by
  simp [isTimeOfDay, and_assoc]

/-- The instant of a day and a time of day. -/
def ofDayNumber (n : Int) (hour minute second : Nat) : Int :=
  n * msPerDay + ((hour * 60 + minute) * 60 + second : Nat) * 1000

/-- A day that is counted from nineteen hundred years later on does not come back. -/
theorem not_ofDay_toDay_later (h : Date.ofDay (Date.toDay ⟨1900 + year, month, day⟩) =
    ⟨year, month, day⟩) : False := by
  have hvalid : Date.Valid ⟨year, month, day⟩ := h ▸ Date.valid_ofDay _
  have hcount : Date.toDay ⟨year, month, day⟩ = Date.toDay ⟨1900 + year, month, day⟩ := by
    rw [← h, Date.toDay_ofDay]
  have hmonth := hvalid.month_bounds
  rw [Date.toDay_eq hmonth, Date.toDay_eq (d := ⟨1900 + year, month, day⟩) hmonth] at hcount
  simp only [Date.elapsed, Date.marchYear, Date.marchDay] at hcount
  split at hcount <;> omega

/-- The fields name an instant when they are a day from the year 100 on and a time of day. -/
theorem ofFields?_eq_some_iff {ms : Int} :
    ofFields? year month day hour minute second = some ms ↔
      100 ≤ year ∧ Date.Valid ⟨year, month, day⟩ ∧ isTimeOfDay hour minute second = true ∧
        ms = ofDayNumber (Date.dayNumber year month day) hour minute second := by
  by_cases hyear : 100 ≤ year
  · have hfull : fullYear year = year := by
      simp only [fullYear]
      split <;> omega
    simp only [ofFields?, hfull, Date.ofDay_toDay_iff]
    constructor
    · intro h
      split at h
      · next hfields =>
        obtain ⟨hvalid, htime⟩ := hfields
        rw [Date.toDay_eq_dayNumber hvalid] at h
        exact ⟨hyear, hvalid, htime, (Option.some.inj h).symm⟩
      · cases h
    · rintro ⟨_, hvalid, htime, rfl⟩
      rw [if_pos ⟨hvalid, htime⟩, Date.toDay_eq_dayNumber hvalid]
      rfl
  · -- such a year is taken for one of the twentieth century
    have hfull : fullYear year = 1900 + year := by
      simp only [fullYear]
      split <;> omega
    refine iff_of_false ?_ fun h => hyear h.1
    simp only [ofFields?, hfull]
    rw [if_neg fun h => not_ofDay_toDay_later h.1]
    simp

/-! ## Reading an instant's text -/

theorem fdiv_ofDayNumber (n : Int) (h : isTimeOfDay hour minute second = true) :
    (ofDayNumber n hour minute second).fdiv msPerDay = n := by
  rw [isTimeOfDay_iff] at h
  rw [Int.fdiv_eq_ediv_of_nonneg _ (by decide)]
  simp only [ofDayNumber, msPerDay]
  omega

theorem fmod_ofDayNumber (n : Int) (h : isTimeOfDay hour minute second = true) :
    (ofDayNumber n hour minute second).fmod msPerDay =
      ((((hour * 60 + minute) * 60 + second) * 1000 : Nat) : Int) := by
  rw [isTimeOfDay_iff] at h
  rw [Int.fmod_eq_emod_of_nonneg _ (by decide)]
  simp only [ofDayNumber, msPerDay]
  omega

/-- The instant of a day of a four-digit year and of a time of day is written in their forms. -/
theorem toList_text_ofDayNumber (hyear : year ≤ 9999) (hvalid : Date.Valid ⟨year, month, day⟩)
    (htime : isTimeOfDay hour minute second = true) :
    (text (ofDayNumber (Date.dayNumber year month day) hour minute second)).toList =
      Form.day.write [year, month, day] ++ 'T' :: Form.time.write [hour, minute, second] ++
        ".000Z".toList := by
  have hdate : Date.ofDay (Date.dayNumber year month day) = ⟨year, month, day⟩ := by
    rw [← Date.toDay_eq_dayNumber hvalid, Date.ofDay_toDay_iff.mpr hvalid]
  have hyearText : yearText year = Text.padded 4 year := by
    rw [yearText, if_pos (by omega), Int.toNat_natCast]
  obtain ⟨_, hminute, hsecond⟩ := isTimeOfDay_iff.mp htime
  obtain ⟨rest, hrest⟩ : ∃ n, n = ((hour * 60 + minute) * 60 + second) * 1000 := ⟨_, rfl⟩
  have hh : rest / 3600000 = hour := by omega
  have hm : rest / 60000 % 60 = minute := by omega
  have hs : rest / 1000 % 60 = second := by omega
  have hms : rest % 1000 = 0 := by omega
  have hzeros : Text.padded 3 0 = "000" := by decide +kernel
  simp only [text, fdiv_ofDayNumber _ htime, fmod_ofDayNumber _ htime, ← hrest, hdate, hyearText,
    Int.toNat_natCast, hh, hm, hs, hms, hzeros, String.toList_append]
  simp [Form.day, Form.time, Form.write]

/-! ## Telling instants apart -/

/-- What follows the year in the text of an instant. -/
def afterYear : Form :=
  [.mark '-', .field 2, .mark '-', .field 2, .mark 'T', .field 2, .mark ':', .field 2, .mark ':',
    .field 2, .mark '.', .field 3, .mark 'Z']

/-- The numbers that follow the year in the text of an instant. -/
def fieldsAfterYear (ms : Int) : List Nat :=
  let date := Date.ofDay (ms.fdiv msPerDay)
  let rest := (ms.fmod msPerDay).toNat
  [date.month.toNat, date.day.toNat, rest / 3600000, rest / 60000 % 60, rest / 1000 % 60,
    rest % 1000]

theorem toList_text (ms : Int) : (text ms).toList =
    (yearText (Date.ofDay (ms.fdiv msPerDay)).year).toList ++
      afterYear.write (fieldsAfterYear ms) := by
  simp [text, afterYear, fieldsAfterYear, Form.write]

theorem wide_afterYear : afterYear.Wide := by simp [afterYear, Form.Wide]

theorem fmod_msPerDay_bounds (ms : Int) : 0 ≤ ms.fmod msPerDay ∧ ms.fmod msPerDay < 86400000 := by
  rw [Int.fmod_eq_emod_of_nonneg _ (by decide)]
  exact ⟨Int.emod_nonneg _ (by decide), Int.emod_lt_of_pos _ (by decide)⟩

theorem fits_afterYear (ms : Int) : afterYear.Fits (fieldsAfterYear ms) := by
  have hvalid := Date.valid_ofDay (ms.fdiv msPerDay)
  have hmonth := hvalid.month_bounds
  have hday := hvalid.day_le_31
  have hrest := fmod_msPerDay_bounds ms
  simp only [afterYear, fieldsAfterYear, Form.Fits, and_true]
  omega

theorem toList_yearText_near {year : Int} (h : 0 ≤ year ∧ year ≤ 9999) :
    (yearText year).toList = (Text.padded 4 year.toNat).toList := by
  rw [yearText, if_pos h]

theorem toList_yearText_far {year : Int} (h : ¬(0 ≤ year ∧ year ≤ 9999)) :
    (yearText year).toList =
      (if year < 0 then '-' else '+') :: (Text.padded 6 year.natAbs).toList := by
  rw [yearText, if_neg h, String.toList_append]
  split <;> rfl

/-- A year with a sign is not taken for one without. -/
theorem yearText_near_ne_far {year year' : Int} (h : 0 ≤ year ∧ year ≤ 9999)
    (h' : ¬(0 ≤ year' ∧ year' ≤ 9999)) : (yearText year).toList ≠ (yearText year').toList := by
  rw [toList_yearText_near h, toList_yearText_far h']
  intro heq
  have hsign : (if year' < 0 then '-' else '+') ∈ (Text.padded 4 year.toNat).toList := by
    rw [heq]
    exact List.mem_cons_self
  have hdigit := Text.isDigit_of_mem_padded hsign
  split at hdigit <;> cases hdigit

theorem yearText_injective {year year' : Int}
    (h : (yearText year).toList = (yearText year').toList) : year = year' := by
  by_cases hnear : 0 ≤ year ∧ year ≤ 9999
  · by_cases hnear' : 0 ≤ year' ∧ year' ≤ 9999
    · rw [toList_yearText_near hnear, toList_yearText_near hnear'] at h
      have := Text.padded_injective (String.toList_inj.mp h)
      omega
    · exact absurd h (yearText_near_ne_far hnear hnear')
  · by_cases hnear' : 0 ≤ year' ∧ year' ≤ 9999
    · exact absurd h.symm (yearText_near_ne_far hnear' hnear)
    · rw [toList_yearText_far hnear, toList_yearText_far hnear'] at h
      obtain ⟨hsign, habs⟩ := List.cons.inj h
      have := Text.padded_injective (String.toList_inj.mp habs)
      have hsame : year < 0 ↔ year' < 0 := by
        split at hsign <;> split at hsign <;> first | omega | cases hsign
      omega

/-- No two instants have the same text. -/
theorem text_injective {ms ms' : Int} (h : text ms = text ms') : ms = ms' := by
  have hlist := congrArg String.toList h
  rw [toList_text, toList_text] at hlist
  have hlength := (Form.length_write wide_afterYear (fits_afterYear ms)).trans
    (Form.length_write wide_afterYear (fits_afterYear ms')).symm
  obtain ⟨hyear, hfields⟩ := List.append_inj' hlist hlength
  have hyear := yearText_injective hyear
  have hfields :=
    Form.write_injective wide_afterYear (fits_afterYear ms) (fits_afterYear ms') hfields
  have hvalid := (Date.valid_ofDay (ms.fdiv msPerDay))
  have hvalid' := (Date.valid_ofDay (ms'.fdiv msPerDay))
  have hmonth := hvalid.month_bounds
  have hmonth' := hvalid'.month_bounds
  have hday := hvalid.day_pos
  have hday' := hvalid'.day_pos
  have hrest := fmod_msPerDay_bounds ms
  have hrest' := fmod_msPerDay_bounds ms'
  simp only [fieldsAfterYear, List.cons.injEq, and_true] at hfields
  have hdays : ms.fdiv msPerDay = ms'.fdiv msPerDay :=
    Date.ofDay_injective (Date.ext hyear (by omega) (by omega))
  have hms : ms.fmod msPerDay = ms'.fmod msPerDay := by omega
  rw [← Int.mul_fdiv_add_fmod ms msPerDay, hdays, hms, Int.mul_fdiv_add_fmod]

end Instant

namespace Coercion

variable {s : String} {w : Value}

theorem coerce_text_eq_ok_iff {t : ScalarType} : coerce (.scalar t) (.text s) = .ok w ∧ w ≠ .null ↔
    isNull (.text s) = false ∧ convert? t (.text s) = some w ∧ w ≠ .null := by
  cases hnull : isNull (.text s) with
  | true =>
    rw [coerce_of_isNull _ hnull]
    simp [eq_comm]
  | false => simp [coerce_scalar_eq_ok_iff hnull]

/-- A date of a four-digit year fits into the form of a day. -/
theorem fits_day {year month day : Nat} (hyear : year ≤ 9999)
    (hvalid : Date.Valid ⟨year, month, day⟩) : year < 10000 ∧ month < 100 ∧ day < 100 := by
  have hmonth := hvalid.month_bounds
  have hday := hvalid.day_le_31
  simp only at hmonth hday
  omega

theorem exists_read_of_instant? {form : Form} (h : instant? form s = some w) :
    ∃ ns, form.read s.toList = some ns := by
  cases hread : form.read s.toList with
  | some ns => exact ⟨ns, rfl⟩
  | none => simp [instant?, hread] at h

theorem instant?_day_eq_some_iff : instant? Form.day s = some w ↔
    ∃ year month day : Nat, 100 ≤ year ∧ year ≤ 9999 ∧ Date.Valid ⟨year, month, day⟩ ∧
      s.toList = Form.day.write [year, month, day] ∧
      w = .date (some (Instant.ofDayNumber (Date.dayNumber year month day) 0 0 0)) := by
  constructor
  · intro h
    obtain ⟨ns, hread⟩ := exists_read_of_instant? h
    obtain ⟨hfits, htext⟩ := (Form.read_eq_some_iff Form.wide_day).mp hread
    obtain ⟨year, month, day, rfl, hyear, _⟩ := Form.fits_day_iff.mp hfits
    simp only [instant?, hread] at h
    obtain ⟨ms, hms, rfl⟩ := Option.map_eq_some_iff.mp h
    obtain ⟨hlow, hvalid, _, rfl⟩ := Instant.ofFields?_eq_some_iff.mp hms
    exact ⟨year, month, day, hlow, by omega, hvalid, htext, rfl⟩
  · rintro ⟨year, month, day, hlow, hyear, hvalid, htext, rfl⟩
    have hread : Form.day.read s.toList = some [year, month, day] :=
      (Form.read_eq_some_iff Form.wide_day).mpr
        ⟨Form.fits_day_iff.mpr ⟨_, _, _, rfl, fits_day hyear hvalid⟩, htext⟩
    have hms := Instant.ofFields?_eq_some_iff.mpr
      ⟨hlow, hvalid, (rfl : isTimeOfDay 0 0 0 = true), rfl⟩
    simp only [instant?, hread, hms, Option.map_some, Function.comp_apply]

theorem instant?_dayTime_eq_some_iff : instant? Form.dayTime s = some w ↔
    ∃ year month day hour minute second : Nat, 100 ≤ year ∧ year ≤ 9999 ∧
      Date.Valid ⟨year, month, day⟩ ∧ isTimeOfDay hour minute second = true ∧
      s.toList = Form.dayTime.write [year, month, day, hour, minute, second] ∧
      w = .date (some
        (Instant.ofDayNumber (Date.dayNumber year month day) hour minute second)) := by
  constructor
  · intro h
    obtain ⟨ns, hread⟩ := exists_read_of_instant? h
    obtain ⟨hfits, htext⟩ := (Form.read_eq_some_iff Form.wide_dayTime).mp hread
    obtain ⟨year, month, day, hour, minute, second, rfl, ⟨hyear, _⟩, _⟩ :=
      Form.fits_dayTime_iff.mp hfits
    simp only [instant?, hread] at h
    obtain ⟨ms, hms, rfl⟩ := Option.map_eq_some_iff.mp h
    obtain ⟨hlow, hvalid, htime, rfl⟩ := Instant.ofFields?_eq_some_iff.mp hms
    exact ⟨year, month, day, hour, minute, second, hlow, by omega, hvalid, htime, htext, rfl⟩
  · rintro ⟨year, month, day, hour, minute, second, hlow, hyear, hvalid, htime, htext, rfl⟩
    obtain ⟨hhour, hminute, hsecond⟩ := Instant.isTimeOfDay_iff.mp htime
    have hread : Form.dayTime.read s.toList = some [year, month, day, hour, minute, second] :=
      (Form.read_eq_some_iff Form.wide_dayTime).mpr
        ⟨Form.fits_dayTime_iff.mpr ⟨_, _, _, _, _, _, rfl, fits_day hyear hvalid,
          by omega, by omega, by omega⟩, htext⟩
    have hms := Instant.ofFields?_eq_some_iff.mpr ⟨hlow, hvalid, htime, rfl⟩
    simp only [instant?, hread, hms, Option.map_some, Function.comp_apply]

/-- What a text of a day, or of a day and a time, becomes. -/
theorem coerce_text_eq_instant_iff {t : ScalarType} {form : Form}
    (hform : ∀ s, convert? t (.text s) = instant? form s)
    (hmark : ∀ {s w}, instant? form s = some w → '-' ∈ s.toList) :
    coerce (.scalar t) (.text s) = .ok w ∧ w ≠ .null ↔ instant? form s = some w := by
  rw [coerce_text_eq_ok_iff, hform]
  refine ⟨fun h => h.2.1, fun h => ⟨isNull_text_of_mem (hmark h) (by decide), h, ?_⟩⟩
  obtain ⟨ms, rfl⟩ := exists_instant_of_instant? h
  exact Value.noConfusion

theorem coerce_date_text_iff :
    coerce (.scalar .date) (.text s) = .ok w ∧ w ≠ .null ↔ instant? Form.day s = some w :=
  coerce_text_eq_instant_iff (fun _ => rfl) fun h => by
    obtain ⟨year, month, day, _, _, _, htext, _⟩ := instant?_day_eq_some_iff.mp h
    simp [htext, Form.day, Form.write]

theorem coerce_datetime_text_iff :
    coerce (.scalar .datetime) (.text s) = .ok w ∧ w ≠ .null ↔ instant? Form.dayTime s = some w :=
  coerce_text_eq_instant_iff (fun _ => rfl) fun h => by
    obtain ⟨year, month, day, _, _, _, _, _, _, _, htext, _⟩ := instant?_dayTime_eq_some_iff.mp h
    simp [htext, Form.dayTime, Form.day, Form.write]

end Coercion

open Coercion in
/-- A text becomes a day when it has the form of a day and names one of the calendar, from the
year 100 on, and it becomes an instant when besides it names a time of day. It then becomes the
instant that it names. -/
theorem coerce_text_instant_iff (s : String) (w : Value) :
    (coerce (.scalar .date) (.text s) = .ok w ∧ w ≠ .null ↔
      ∃ year month day : Nat, 100 ≤ year ∧ year ≤ 9999 ∧ Date.Valid ⟨year, month, day⟩ ∧
        s.toList = Form.day.write [year, month, day] ∧
        w = .date (some (Date.dayNumber year month day * Instant.msPerDay))) ∧
    (coerce (.scalar .datetime) (.text s) = .ok w ∧ w ≠ .null ↔
      ∃ year month day hour minute second : Nat, 100 ≤ year ∧ year ≤ 9999 ∧
        Date.Valid ⟨year, month, day⟩ ∧ hour ≤ 23 ∧ minute ≤ 59 ∧ second ≤ 59 ∧
        s.toList = Form.dayTime.write [year, month, day, hour, minute, second] ∧
        w = .date (some (Date.dayNumber year month day * Instant.msPerDay +
          ((hour * 60 + minute) * 60 + second : Nat) * 1000))) := by
  constructor
  · rw [coerce_date_text_iff, instant?_day_eq_some_iff]
    simp [Instant.ofDayNumber]
  · rw [coerce_datetime_text_iff, instant?_dayTime_eq_some_iff]
    simp only [Instant.isTimeOfDay_iff, and_assoc, Instant.ofDayNumber]

namespace Sample
open Coercion

/-- A day of the year 50 is of the calendar and has the form, and yet is refused. -/
theorem coerce_first_century_refused :
    coerce (.scalar .date) (.text "0050-01-01") =
        .error (.unconvertible (.text "0050-01-01") "date") ∧
      Date.Valid ⟨50, 1, 1⟩ ∧ "0050-01-01".toList = Form.day.write [50, 1, 1] :=
  ⟨rfl, by decide +kernel, by decide +kernel⟩

end Sample

/-! ## Writing back -/

namespace Coercion

variable {s : String} {w : Value}

theorem render_of_coerce_date (h : coerce (.scalar .date) (.text s) = .ok w) (hw : w ≠ .null) :
    w.render = .ok (s ++ "T00:00:00.000Z") := by
  obtain ⟨year, month, day, _, hyear, hvalid, htext, rfl⟩ :=
    instant?_day_eq_some_iff.mp (coerce_date_text_iff.mp ⟨h, hw⟩)
  have hmidnight : Form.time.write [0, 0, 0] = "00:00:00".toList := by decide +kernel
  have hlist := Instant.toList_text_ofDayNumber hyear hvalid (rfl : isTimeOfDay 0 0 0 = true)
  rw [← htext, hmidnight] at hlist
  refine congrArg Except.ok (String.toList_inj.mp ?_)
  rw [hlist]
  simp

/-- The mark between a day and a time is not the same when they are written back. -/
def rewritten (c : Char) : Char := if c = ' ' then 'T' else c

theorem map_rewritten {s : List Char} (h : ' ' ∉ s) : s.map rewritten = s := by
  conv_rhs => rw [← List.map_id s]
  refine List.map_congr_left fun c hc => if_neg ?_
  rintro rfl
  exact h hc

/-- Texts without the mark that is written come from one text only. -/
theorem rewritten_injective {s s' : List Char} (h : 'T' ∉ s) (h' : 'T' ∉ s')
    (heq : s.map rewritten = s'.map rewritten) : s = s' := by
  have hback {s : List Char} (h : 'T' ∉ s) :
      (s.map rewritten).map (fun c => if c = 'T' then ' ' else c) = s := by
    rw [List.map_map]
    conv_rhs => rw [← List.map_id s]
    refine List.map_congr_left fun c hc => ?_
    by_cases hblank : c = ' '
    · simp [rewritten, hblank]
    · have hmark : c ≠ 'T' := fun heq => h (heq ▸ hc)
      simp [rewritten, hblank, hmark]
  rw [← hback h, heq, hback h']

theorem render_of_coerce_datetime (h : coerce (.scalar .datetime) (.text s) = .ok w)
    (hw : w ≠ .null) :
    'T' ∉ s.toList ∧ w.render = .ok (String.ofList (s.toList.map rewritten) ++ ".000Z") := by
  obtain ⟨year, month, day, hour, minute, second, _, hyear, hvalid, htime, htext, rfl⟩ :=
    instant?_dayTime_eq_some_iff.mp (coerce_datetime_text_iff.mp ⟨h, hw⟩)
  have hday : ' ' ∉ Form.day.write [year, month, day] :=
    Form.not_mem_write _ rfl (by simp [Form.day])
  have hclock : ' ' ∉ Form.time.write [hour, minute, second] :=
    Form.not_mem_write _ rfl (by simp [Form.time])
  have hsplit : s.toList = Form.day.write [year, month, day] ++
      ' ' :: Form.time.write [hour, minute, second] := by
    rw [htext]
    simp [Form.dayTime, Form.day, Form.write]
  constructor
  · rw [htext]
    exact Form.not_mem_write _ rfl (by simp [Form.dayTime, Form.day, Form.time])
  · have hlist := Instant.toList_text_ofDayNumber hyear hvalid htime
    refine congrArg Except.ok (String.toList_inj.mp ?_)
    rw [hlist, hsplit, String.toList_append, String.toList_ofList, List.map_append, List.map_cons,
      map_rewritten hday, map_rewritten hclock]
    simp [rewritten]

theorem time?_text_eq_some_iff : time? (.text s) = some w ↔
    ∃ hour minute second, isTimeOfDay hour minute second = true ∧
      s.toList = Form.time.write [hour, minute, second] ∧ w = .ofTimeOfDay hour minute second := by
  have htext : (Value.text s).isTimeOfDay = false := rfl
  simp only [time?, htext, Bool.false_eq_true, if_false]
  constructor
  · intro h
    split at h
    · next hour minute second hread =>
      obtain ⟨_, hs⟩ := (Form.read_eq_some_iff Form.wide_time).mp hread
      split at h <;> cases h
      next htime => exact ⟨hour, minute, second, htime, hs, rfl⟩
    · cases h
  · rintro ⟨hour, minute, second, htime, hs, rfl⟩
    obtain ⟨hhour, hminute, hsecond⟩ := Instant.isTimeOfDay_iff.mp htime
    have hread : Form.time.read s.toList = some [hour, minute, second] :=
      (Form.read_eq_some_iff Form.wide_time).mpr
        ⟨Form.fits_time_iff.mpr ⟨_, _, _, rfl, by omega, by omega, by omega⟩, hs⟩
    simp only [hread, htime, if_true]

theorem render_of_coerce_time (h : coerce (.scalar .time) (.text s) = .ok w) (hw : w ≠ .null) :
    w.render = .ok s := by
  obtain ⟨_, hconvert, _⟩ := coerce_text_eq_ok_iff.mp ⟨h, hw⟩
  obtain ⟨hour, minute, second, htime, hs, rfl⟩ := time?_text_eq_some_iff.mp hconvert
  rw [Value.render_of_timeOfDay? (Value.timeOfDay?_ofTimeOfDay htime), ← hs, String.ofList_toList]

end Coercion

open Coercion in
/-- What a text of a day, an instant or a time becomes is written as the text was, so that
nothing rolls over, and no other text becomes the same. -/
theorem coerced_text_writes_back {s : String} {w : Value} (hw : w ≠ .null) :
    (coerce (.scalar .date) (.text s) = .ok w → w.render = .ok (s ++ "T00:00:00.000Z")) ∧
    (coerce (.scalar .datetime) (.text s) = .ok w →
      w.render = .ok (String.ofList (s.toList.map rewritten) ++ ".000Z")) ∧
    (coerce (.scalar .time) (.text s) = .ok w → w.render = .ok s) ∧
    ∀ t ∈ [ScalarType.date, .datetime, .time], ∀ s',
      coerce (.scalar t) (.text s) = .ok w → coerce (.scalar t) (.text s') = .ok w → s = s' := by
  refine ⟨fun h => render_of_coerce_date h hw, fun h => (render_of_coerce_datetime h hw).2,
    fun h => render_of_coerce_time h hw, fun t ht s' h h' => ?_⟩
  simp only [List.mem_cons, List.not_mem_nil, or_false] at ht
  obtain rfl | rfl | rfl := ht
  · have hsame := (render_of_coerce_date h hw).symm.trans (render_of_coerce_date h' hw)
    exact (String.append_left_inj _).mp (Except.ok.inj hsame)
  · obtain ⟨hmark, hrender⟩ := render_of_coerce_datetime h hw
    obtain ⟨hmark', hrender'⟩ := render_of_coerce_datetime h' hw
    have hsame := (String.append_left_inj _).mp (Except.ok.inj (hrender.symm.trans hrender'))
    exact String.toList_inj.mp (rewritten_injective hmark hmark' (String.ofList_inj.mp hsame))
  · exact Except.ok.inj ((render_of_coerce_time h hw).symm.trans (render_of_coerce_time h' hw))

namespace Sample
open Coercion

/-- A leap day, its last second, and a time of day. -/
theorem coerced_text_writes_back_leapDay :
    (coerce (.scalar .date) (.text "2016-02-29") = .ok (.date (some 1456704000000)) ∧
      (Value.date (some 1456704000000)).render = .ok "2016-02-29T00:00:00.000Z") ∧
    (coerce (.scalar .datetime) (.text "2016-02-29 23:59:59") = .ok (.date (some 1456790399000)) ∧
      (Value.date (some 1456790399000)).render = .ok "2016-02-29T23:59:59.000Z") ∧
    (coerce (.scalar .time) (.text "23:59:59") = .ok (.ofTimeOfDay 23 59 59) ∧
      (Value.ofTimeOfDay 23 59 59).render = .ok "23:59:59") :=
  ⟨⟨rfl, (coerced_text_writes_back (s := "2016-02-29") Value.noConfusion).1 rfl⟩,
    ⟨rfl, ((coerced_text_writes_back (s := "2016-02-29 23:59:59") Value.noConfusion).2.1 rfl).trans
      (congrArg Except.ok (by decide +kernel))⟩,
    ⟨rfl, (coerced_text_writes_back Value.noConfusion).2.2.1 rfl⟩⟩

end Sample

end RowFilter
