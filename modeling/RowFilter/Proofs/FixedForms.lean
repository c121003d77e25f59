import Mathlib.Algebra.Group.Nat.Defs
import Mathlib.Data.List.Induction
import RowFilter.Text.Form

/-!
# Numbers of a fixed width

A run of digits is told by its length and the number it denotes, and a number that fits into a
width is written with exactly that many digits. So reading a text in a form and writing numbers
in it are inverse to each other, on the numbers that fit.
-/

namespace RowFilter.Text

/-! ## Runs of digits -/

theorem digitValue_lt {c : Char} (h : isDigit c = true) : digitValue c < 10 := by
  simp only [isDigit, Bool.and_eq_true, decide_eq_true_eq, Char.le_def, UInt32.le_iff_toNat_le] at h
  have : c.toNat ≤ 57 := h.2
  show c.toNat - 48 < 10
  omega

theorem digitValue_injective {c d : Char} (hc : isDigit c = true) (hd : isDigit d = true)
    (h : digitValue c = digitValue d) : c = d := by
  simp only [isDigit, Bool.and_eq_true, decide_eq_true_eq, Char.le_def, UInt32.le_iff_toNat_le]
    at hc hd
  have hc : 48 ≤ c.toNat := hc.1
  have hd : 48 ≤ d.toNat := hd.1
  have h : c.toNat - 48 = d.toNat - 48 := h
  exact Char.toNat_inj.mp (by omega)

theorem isDigit_of_mem_toDigits {n : Nat} {c : Char} (h : c ∈ Nat.toDigits 10 n) :
    isDigit c = true := by
  have hdigit := Nat.isDigit_of_mem_toDigits (by decide) (by decide) h
  simpa [isDigit, Char.isDigit, Char.le_def] using hdigit

theorem readDigits_toDigits (n : Nat) : readDigits (Nat.toDigits 10 n) = n :=
  Nat.ofDigitChars_toDigits (by decide) (by decide)

theorem readDigits_replicate_append (zeros : Nat) (ds : List Char) :
    readDigits (List.replicate zeros '0' ++ ds) = readDigits ds := by
  induction zeros with
  | zero => rfl
  | succ zeros ih =>
    rw [List.replicate_succ, List.cons_append, ← ih]
    rfl

/-- A run of digits denotes a number below the power of ten of its length. -/
theorem readDigits_lt {ds : List Char} (h : ∀ c ∈ ds, isDigit c = true) :
    readDigits ds < 10 ^ ds.length := by
  induction ds using List.reverseRecOn with
  | nil => decide
  | append_singleton ds c ih =>
    have hds := ih fun d hd => h d (List.mem_append_left _ hd)
    have hc := digitValue_lt (h c (by simp))
    rw [readDigits_concat, List.length_append, List.length_singleton, Nat.pow_succ]
    omega

/-- Runs of digits of one length that denote one number are the same. -/
theorem readDigits_injective {ds ds' : List Char} (h : ∀ c ∈ ds, isDigit c = true)
    (h' : ∀ c ∈ ds', isDigit c = true) (hlength : ds.length = ds'.length)
    (hvalue : readDigits ds = readDigits ds') : ds = ds' := by
  induction ds using List.reverseRecOn generalizing ds' with
  | nil => exact (List.length_eq_zero_iff.mp hlength.symm).symm
  | append_singleton ds c ih =>
    obtain rfl | ⟨ds', c', rfl⟩ := List.eq_nil_or_concat ds'
    · simp at hlength
    have hc := digitValue_lt (h c (by simp))
    have hc' := digitValue_lt (h' c' (by simp))
    rw [List.concat_eq_append] at h' hvalue hlength ⊢
    rw [readDigits_concat, readDigits_concat] at hvalue
    have hlast : c = c' := digitValue_injective (h c (by simp)) (h' c' (by simp)) (by omega)
    have hfront : ds = ds' :=
      ih (fun d hd => h d (List.mem_append_left _ hd))
        (fun d hd => h' d (List.mem_append_left _ hd))
        (by simpa using hlength) (by omega)
    rw [hfront, hlast]

/-! ## Padding -/

theorem toList_pushn (s : String) (c : Char) (n : Nat) :
    (s.pushn c n).toList = s.toList ++ List.replicate n c := by
  rw [String.pushn_eq_repeat_push]
  induction n with
  | zero => simp [Nat.repeat]
  | succ n ih =>
    rw [Nat.repeat, String.toList_push, ih, List.append_assoc, List.replicate_succ']

theorem toList_padded (width n : Nat) :
    (padded width n).toList =
      List.replicate (width - (Nat.toDigits 10 n).length) '0' ++ Nat.toDigits 10 n := by
  have hlength : (toString n).length = (Nat.toDigits 10 n).length := by
    rw [Nat.toString_eq_ofList_toDigits, String.length_ofList]
  rw [padded, padLeft, hlength, String.toList_append, Nat.toString_eq_ofList_toDigits,
    String.toList_ofList, toList_pushn]
  rfl

theorem isDigit_of_mem_padded {width n : Nat} {c : Char} (h : c ∈ (padded width n).toList) :
    isDigit c = true := by
  rw [toList_padded, List.mem_append] at h
  obtain h | h := h
  · rw [List.eq_of_mem_replicate h]
    rfl
  · exact isDigit_of_mem_toDigits h

theorem readDigits_padded (width n : Nat) : readDigits (padded width n).toList = n := by
  rw [toList_padded, readDigits_replicate_append, readDigits_toDigits]

/-- A number that fits into the width takes exactly as many digits. -/
theorem length_padded {width n : Nat} (hwidth : 0 < width) (h : n < 10 ^ width) :
    (padded width n).toList.length = width := by
  have := (Nat.length_toDigits_le_iff (by decide) hwidth).mpr h
  rw [toList_padded, List.length_append, List.length_replicate]
  omega

theorem padded_readDigits {ds : List Char} (hne : ds ≠ []) (h : ∀ c ∈ ds, isDigit c = true) :
    (padded ds.length (readDigits ds)).toList = ds :=
  readDigits_injective (fun _ hc => isDigit_of_mem_padded hc) h
    (length_padded (List.length_pos_iff.mpr hne) (readDigits_lt h)) (readDigits_padded _ _)

theorem padded_injective {width n m : Nat} (h : padded width n = padded width m) : n = m := by
  rw [← readDigits_padded width n, h, readDigits_padded]

/-- Reading digits off the head of a text and writing a number before the rest. -/
theorem takeDigits_eq_some_iff {width n : Nat} {s rest : List Char} (hwidth : 0 < width) :
    takeDigits width s = some (n, rest) ↔
      n < 10 ^ width ∧ s = (padded width n).toList ++ rest := by
  simp only [takeDigits]
  constructor
  · intro h
    split at h
    · next hdigits =>
      obtain ⟨hlength, hall⟩ := hdigits
      obtain ⟨rfl, rfl⟩ := Prod.mk.inj (Option.some.inj h)
      have hall := List.all_eq_true.mp hall
      have hne : s.take width ≠ [] := fun hnil => by simp [hnil] at hlength; omega
      have hpadded := padded_readDigits hne hall
      have hlt := readDigits_lt hall
      rw [hlength] at hpadded hlt
      exact ⟨hlt, by rw [hpadded, List.take_append_drop]⟩
    · cases h
  · rintro ⟨hlt, hs⟩
    have hlength := length_padded hwidth hlt
    rw [hs, List.take_left' hlength, List.drop_left' hlength,
      if_pos ⟨hlength, List.all_eq_true.mpr fun _ hc => isDigit_of_mem_padded hc⟩,
      readDigits_padded]

/-! ## Forms -/

namespace Form

/-- One number for each field, of at most as many digits as the field is wide. -/
def Fits : Form → List Nat → Prop
  | [], ns => ns = []
  | .mark _ :: form, ns => Fits form ns
  | .field _ :: _, [] => False
  | .field width :: form, n :: ns => n < 10 ^ width ∧ Fits form ns

/-- Every field takes a digit. -/
def Wide : Form → Prop
  | [] => True
  | .mark _ :: form => Wide form
  | .field width :: form => 0 < width ∧ Wide form

/-- The texts in a form are those that numbers of its widths are written as. -/
theorem read_eq_some_iff {form : Form} (hwide : form.Wide) {s : List Char} {ns : List Nat} :
    form.read s = some ns ↔ form.Fits ns ∧ s = form.write ns := by
  induction form generalizing s ns with
  | nil =>
    cases s with
    | nil => simp [read, Fits, write, eq_comm]
    | cons c s => simp [read, write]
  | cons piece form ih =>
    cases piece with
    | mark c =>
      cases s with
      | nil => simp [read, write]
      | cons d s =>
        simp only [read, Fits, write, List.cons.injEq, eq_comm (a := d)]
        by_cases hmark : c = d
        · simp [hmark, ih hwide]
        · simp [hmark]
    | field width =>
      obtain ⟨hwidth, hwide⟩ := hwide
      simp only [read]
      cases ns with
      | nil =>
        simp only [Fits, false_and, iff_false]
        split <;> simp
      | cons n ns =>
        simp only [Fits, write, and_assoc]
        constructor
        · intro h
          split at h
          · next m rest htake =>
            obtain ⟨ns', hread, hns⟩ := Option.map_eq_some_iff.mp h
            obtain ⟨rfl, rfl⟩ := List.cons.inj hns
            obtain ⟨hlt, hs⟩ := (takeDigits_eq_some_iff hwidth).mp htake
            obtain ⟨hfits, hrest⟩ := (ih hwide).mp hread
            exact ⟨hlt, hfits, by rw [hs, hrest]⟩
          · cases h
        · rintro ⟨hlt, hfits, hs⟩
          have htake := (takeDigits_eq_some_iff hwidth).mpr ⟨hlt, hs⟩
          have hread : read form (write form ns) = some ns := (ih hwide).mpr ⟨hfits, rfl⟩
          simp only [htake, hread, Option.map_some]

/-- Texts of numbers that fit tell the numbers. -/
theorem write_injective {form : Form} (hwide : form.Wide) {ns ns' : List Nat} (h : form.Fits ns)
    (h' : form.Fits ns') (heq : form.write ns = form.write ns') : ns = ns' := by
  have hread := (read_eq_some_iff hwide).mpr ⟨h, rfl⟩
  have hread' := (read_eq_some_iff hwide).mpr ⟨h', heq⟩
  exact Option.some.inj (hread.symm.trans hread')

/-- The length of the texts in a form. -/
def width : Form → Nat
  | [] => 0
  | .mark _ :: form => width form + 1
  | .field width :: form => width + Form.width form

theorem length_write {form : Form} (hwide : form.Wide) {ns : List Nat} (h : form.Fits ns) :
    (form.write ns).length = form.width := by
  induction form generalizing ns with
  | nil => rfl
  | cons piece form ih =>
    cases piece with
    | mark c => rw [write, width, List.length_cons, ih hwide h]
    | field width =>
      cases ns with
      | nil => cases h
      | cons n ns =>
        rw [write, List.length_append, length_padded hwide.1 h.1, ih hwide.2 h.2, Form.width]

/-- The characters of a text in a form are digits and the form's marks. -/
theorem mem_write {form : Form} {ns : List Nat} {c : Char} (h : c ∈ form.write ns) :
    isDigit c = true ∨ .mark c ∈ form := by
  induction form generalizing ns with
  | nil => simp [write] at h
  | cons piece form ih =>
    cases piece with
    | mark d =>
      obtain rfl | h := List.mem_cons.mp h
      · exact .inr (by simp)
      · exact (ih h).imp_right (List.mem_cons_of_mem _)
    | field width =>
      cases ns with
      | nil => simp [write] at h
      | cons n ns =>
        obtain h | h := List.mem_append.mp h
        · exact .inl (isDigit_of_mem_padded h)
        · exact (ih h).imp_right (List.mem_cons_of_mem _)

theorem not_mem_write {form : Form} {c : Char} (ns : List Nat) (hc : isDigit c = false)
    (hmark : .mark c ∉ form) : c ∉ form.write ns := fun h =>
  (mem_write h).elim (fun hdigit => by simp [hc] at hdigit) hmark

theorem wide_day : day.Wide := by simp [day, Wide]

theorem wide_time : time.Wide := by simp [time, Wide]

theorem wide_dayTime : dayTime.Wide := by simp [dayTime, day, time, Wide]

theorem fits_day_iff {ns : List Nat} : day.Fits ns ↔
    ∃ year month day, ns = [year, month, day] ∧ year < 10000 ∧ month < 100 ∧ day < 100 := by
  rcases ns with _ | ⟨year, _ | ⟨month, _ | ⟨day, _ | _⟩⟩⟩ <;> simp [Form.day, Fits]

theorem fits_time_iff {ns : List Nat} : time.Fits ns ↔
    ∃ hour minute second, ns = [hour, minute, second] ∧
      hour < 100 ∧ minute < 100 ∧ second < 100 := by
  rcases ns with _ | ⟨hour, _ | ⟨minute, _ | ⟨second, _ | _⟩⟩⟩ <;> simp [time, Fits]

theorem fits_dayTime_iff {ns : List Nat} : dayTime.Fits ns ↔
    ∃ year month day hour minute second, ns = [year, month, day, hour, minute, second] ∧
      (year < 10000 ∧ month < 100 ∧ day < 100) ∧ hour < 100 ∧ minute < 100 ∧ second < 100 := by
  rcases ns with _ | ⟨year, _ | ⟨month, _ | ⟨day, _ | ⟨hour, _ | ⟨minute, _ | ⟨second, _ | _⟩⟩⟩⟩⟩⟩
  all_goals simp [dayTime, Form.day, time, Fits, and_assoc]

end Form
end RowFilter.Text
