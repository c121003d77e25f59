import RowFilter.Number.Whole
import RowFilter.Operator
import RowFilter.Predicate.Render
import RowFilter.Predicate.Typing

/-!
# Coerced operands

What a coerced operand can be. It is null or belongs to the type, and so can be rendered. All
types but one make a value of their own, which stands for itself in a comparison. A time of day is
taken as it is, whatever else its record holds, and so may pass for a remainder operand as well.
-/

namespace RowFilter

namespace Value

theorem exists_record_of_isTimeOfDay {v : Value} (h : v.isTimeOfDay = true) :
    ∃ kind entries, v = .record kind entries := by
  cases v with
  | record kind entries => exact ⟨kind, entries, rfl⟩
  | _ => cases h

/-- A time of day is written in the form of a time, whatever else its record holds. -/
theorem render_of_timeOfDay? {v : Value} {hour minute second : Nat}
    (h : v.timeOfDay? = some (hour, minute, second)) :
    v.render = .ok (String.ofList (Text.Form.time.write [hour, minute, second])) := by
  obtain ⟨kind, entries, rfl⟩ := exists_record_of_isTimeOfDay (Option.isSome_of_eq_some h)
  simp only [render, h]

/-- A time of day has a text. -/
theorem exists_render_of_isTimeOfDay {v : Value} (h : v.isTimeOfDay = true) :
    ∃ s, v.render = .ok s := by
  obtain ⟨⟨hour, minute, second⟩, htime⟩ := Option.isSome_iff_exists.mp h
  exact ⟨_, render_of_timeOfDay? htime⟩

theorem timeOfDay?_ofTimeOfDay {hour minute second : Nat}
    (h : RowFilter.isTimeOfDay hour minute second = true) :
    (ofTimeOfDay hour minute second).timeOfDay? = some (hour, minute, second) := by
  have hranges := h
  simp only [RowFilter.isTimeOfDay, Bool.and_eq_true, decide_eq_true_eq] at hranges
  obtain ⟨⟨hhour, hminute⟩, hsecond⟩ := hranges
  have hhour := Number.toInt?_ofNat (Nat.lt_of_le_of_lt hhour (by decide))
  have hminute := Number.toInt?_ofNat (Nat.lt_of_le_of_lt hminute (by decide))
  have hsecond := Number.toInt?_ofNat (Nat.lt_of_le_of_lt hsecond (by decide))
  simp [timeOfDay?, ofTimeOfDay, ofEntries, member?, entries?, Entries.get?_cons, number?, hhour,
    hminute, hsecond, h]

theorem isTimeOfDay_ofTimeOfDay {hour minute second : Nat}
    (h : RowFilter.isTimeOfDay hour minute second = true) :
    (ofTimeOfDay hour minute second).isTimeOfDay = true := by
  rw [isTimeOfDay, timeOfDay?_ofTimeOfDay h]
  rfl

/-- A time of day that was written as a text is no remainder operand. -/
theorem modulus?_ofTimeOfDay (hour minute second : Nat) :
    (ofTimeOfDay hour minute second).modulus? = none :=
  rfl

/-- A value that suits a type can be rendered. -/
theorem Suits.exists_render {type : ValueType} {v : Value} (h : v.Suits type) :
    ∃ s, v.render = .ok s := by
  obtain rfl | ⟨t, _, h⟩ := h
  · exact ⟨_, rfl⟩
  · cases t with
    | time => exact exists_render_of_isTimeOfDay (hasType_time_iff.mp h)
    | _ =>
      cases h
      exact ⟨_, rfl⟩

end Value

namespace Coercion

/-- What an operand may become as a value of the type. -/
inductive Coerced : ValueType → Value → Value → Prop
  | null {type : ValueType} {v : Value} : Coerced type v .null
  | int {v : Value} {n : Number} : n.isInteger = true → Coerced (.scalar .int) v (.number n)
  | float {v : Value} {n : Number} : n ≠ .nan → Coerced (.scalar .float) v (.number n)
  | text {v : Value} {s : String} : Coerced (.scalar .text) v (.text s)
  | bool {v : Value} {b : Bool} : Coerced (.scalar .bool) v (.bool b)
  | date {v : Value} {ms : Int} : Coerced (.scalar .date) v (.date (some ms))
  | datetime {v : Value} {ms : Int} : Coerced (.scalar .datetime) v (.date (some ms))
  | time {v : Value} {hour minute second : Nat} : isTimeOfDay hour minute second = true →
      Coerced (.scalar .time) v (.ofTimeOfDay hour minute second)
  /-- A time of day is taken as it is. -/
  | sameTime {v : Value} : v.isTimeOfDay = true → Coerced (.scalar .time) v v

variable {type : ValueType} {v w : Value}

/-- A text with a character that is not in the word stands for something. -/
theorem isNull_text_of_mem {s : String} {c : Char} (h : c ∈ s.toList)
    (hc : c.toLower ∉ "null".toList) : isNull (.text s) = false := by
  refine Bool.eq_false_iff.mpr fun hnull => hc ?_
  rw [← (Text.spells_iff "null" s).mp hnull]
  exact List.mem_map_of_mem h

theorem exists_instant_of_instant? {form : Text.Form} {s : String} (h : instant? form s = some w) :
    ∃ ms, w = .date (some ms) := by
  unfold instant? at h
  split at h
  · obtain ⟨ms, _, rfl⟩ := Option.map_eq_some_iff.mp h
    exact ⟨ms, rfl⟩
  · obtain ⟨ms, _, rfl⟩ := Option.map_eq_some_iff.mp h
    exact ⟨ms, rfl⟩
  · cases h

theorem exists_instant_of_date? {form : Text.Form} (h : date? form v = some w) :
    ∃ ms, w = .date (some ms) := by
  unfold date? at h
  split at h
  · cases h
    exact ⟨_, rfl⟩
  · exact exists_instant_of_instant? h
  · cases h

theorem coerced_of_time? (h : time? v = some w) : Coerced (.scalar .time) v w := by
  unfold time? at h
  split at h
  · next htime =>
    cases h
    exact .sameTime htime
  · split at h
    · split at h
      · split at h <;> cases h
        next htime => exact .time htime
      · cases h
    · cases h

theorem coerced_of_int? (h : int? v = some w) : Coerced (.scalar .int) v w := by
  unfold int? at h
  split at h
  · next n =>
    split at h <;> cases h
    next hfinite =>
    split
    · next hinteger => exact .int hinteger
    · exact .int (Number.isInteger_trunc hfinite)
  · next b =>
    cases h
    refine .int (Number.isInteger_signed false ?_)
    cases b <;> decide
  · split at h
    · dsimp only at h
      split at h <;> cases h
      next hsafe => exact .int (Number.isInteger_of_isSafeInteger hsafe)
    · cases h
  · cases h

theorem coerced_of_text? (h : text? v = some w) : Coerced (.scalar .text) v w := by
  unfold text? at h
  split at h <;> cases h <;> exact .text

theorem coerced_of_bool? (h : bool? v = some w) : Coerced (.scalar .bool) v w := by
  unfold bool? at h
  split at h <;> cases h <;> exact .bool

theorem coerced_of_float? (h : float? v = some w) : Coerced (.scalar .float) v w := by
  unfold float? at h
  split at h
  · split at h <;> cases h
    next hn => exact .float hn
  · cases h
    exact .float (Number.hasSign_ofRatio false _ 1).ne_nan
  · obtain ⟨n, hn, rfl⟩ := Option.map_eq_some_iff.mp h
    exact .float (Number.ne_nan_of_decimal? hn)
  · cases h

theorem coerced_of_convert? {t : ScalarType} (h : convert? t v = some w) :
    Coerced (.scalar t) v w := by
  cases t with
  | int => exact coerced_of_int? h
  | text => exact coerced_of_text? h
  | bool => exact coerced_of_bool? h
  | date =>
    obtain ⟨ms, rfl⟩ := exists_instant_of_date? h
    exact .date
  | datetime =>
    obtain ⟨ms, rfl⟩ := exists_instant_of_date? h
    exact .datetime
  | float => exact coerced_of_float? h
  | time => exact coerced_of_time? h

theorem coerced_of_coerce (h : coerce type v = .ok w) : Coerced type v w := by
  cases hnull : isNull v with
  | true =>
    rw [coerce_of_isNull type hnull] at h
    cases h
    exact .null
  | false =>
    cases type with
    | scalar t => exact coerced_of_convert? ((coerce_scalar_eq_ok_iff hnull).mp h)
    | foreign label => simp [coerce, hnull] at h

namespace Coerced

/-- What an operand becomes suits the type. -/
theorem suits (h : Coerced type v w) : w.Suits type := by
  cases h with
  | null => exact .inl rfl
  | int hinteger =>
    exact .inr ⟨_, rfl, .int (Number.isFinite_of_isInteger hinteger) hinteger⟩
  | float hn => exact .inr ⟨_, rfl, .float hn⟩
  | text => exact .inr ⟨_, rfl, .text⟩
  | bool => exact .inr ⟨_, rfl, .bool⟩
  | date => exact .inr ⟨_, rfl, .date⟩
  | datetime => exact .inr ⟨_, rfl, .datetime⟩
  | time htime =>
    exact .inr ⟨_, rfl, Value.hasType_time_iff.mpr (Value.isTimeOfDay_ofTimeOfDay htime)⟩
  | sameTime htime => exact .inr ⟨_, rfl, Value.hasType_time_iff.mpr htime⟩

/-- What an operand becomes stands for itself, unless it is a time of day that passes for a
remainder operand. -/
theorem isSingle_or (h : Coerced type v w) : Predicate.isSingle w = true ∨
    type = .scalar .time ∧ w = v ∧ v.isTimeOfDay = true ∧ v.modulus?.isSome := by
  cases h with
  | @time _ hour minute second _ =>
    left
    show (Value.ofTimeOfDay hour minute second).modulus?.isNone = true
    rw [Value.modulus?_ofTimeOfDay]
    rfl
  | sameTime htime =>
    cases hmodulus : v.modulus? with
    | some m => exact .inr ⟨rfl, rfl, htime, rfl⟩
    | none =>
      left
      obtain ⟨kind, entries, rfl⟩ := Value.exists_record_of_isTimeOfDay htime
      show (Value.record kind entries).modulus?.isNone = true
      rw [hmodulus]
      rfl
  | _ => exact .inl rfl

end Coerced

/-- A time of day is taken as it is. -/
theorem coerce_time_of_isTimeOfDay (h : v.isTimeOfDay = true) :
    coerce (.scalar .time) v = .ok v := by
  obtain ⟨kind, entries, rfl⟩ := Value.exists_record_of_isTimeOfDay h
  refine (coerce_scalar_eq_ok_iff rfl).mpr ?_
  simp only [convert?, time?, h, if_true]

end Coercion
end RowFilter
