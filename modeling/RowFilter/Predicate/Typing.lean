import RowFilter.Predicate

/-!
# Types of operands

Which values belong to a type, and which comparisons suit a field of that type. Null suits every
field, and nothing else suits a field whose type is not known here.
-/

namespace RowFilter

namespace Value

/-- A member of a record that is a whole number up to a limit. -/
def HasPart (v : Value) (name : String) (limit : Nat) : Prop :=
  ∃ (n : Number) (i : Nat), v.member? name = some (.number n) ∧ n.toInt? = some (i : Int) ∧
    i ≤ limit

/-- The values that belong to a type. -/
inductive HasType : ScalarType → Value → Prop
  | int {n : Number} : n.isFinite = true → n.isInteger = true → HasType .int (.number n)
  | float {n : Number} : n ≠ .nan → HasType .float (.number n)
  | text {s : String} : HasType .text (.text s)
  | bool {b : Bool} : HasType .bool (.bool b)
  | date {ms : Int} : HasType .date (.date (some ms))
  | datetime {ms : Int} : HasType .datetime (.date (some ms))
  | time {v : Value} : v.HasPart "hour" 23 → v.HasPart "minute" 59 → v.HasPart "second" 59 →
      HasType .time v

/-- The values that a field of the type may be compared with. -/
def Suits (type : ValueType) (v : Value) : Prop :=
  v = .null ∨ ∃ t, type = .scalar t ∧ v.HasType t

theorem eq_number_of_number? {v : Value} {n : Number} (h : v.number? = some n) :
    v = .number n := by
  cases v with
  | number => exact congrArg Value.number (Option.some.inj h)
  | _ => cases h

theorem hasPart_iff {v : Value} {name : String} {limit : Nat} :
    v.HasPart name limit ↔ ∃ i ≤ limit, (do
      let n ← (← v.member? name).number?
      let i ← n.toInt?
      if 0 ≤ i then some i.toNat else none) = some i := by
  constructor
  · rintro ⟨n, i, hmember, hint, hle⟩
    refine ⟨i, hle, ?_⟩
    simp [hmember, number?, hint]
  · rintro ⟨i, hle, h⟩
    obtain ⟨w, hw, h⟩ := Option.bind_eq_some_iff.mp h
    obtain ⟨n, hn, h⟩ := Option.bind_eq_some_iff.mp h
    obtain ⟨j, hj, h⟩ := Option.bind_eq_some_iff.mp h
    have hn : w = .number n := eq_number_of_number? hn
    split at h
    · next hpos =>
      cases h
      exact ⟨n, j.toNat, hn ▸ hw, by rw [hj, Int.toNat_of_nonneg hpos], hle⟩
    · cases h

theorem isTimeOfDay_iff (v : Value) :
    v.isTimeOfDay = true ↔ v.HasPart "hour" 23 ∧ v.HasPart "minute" 59 ∧ v.HasPart "second" 59 := by
  rw [hasPart_iff, hasPart_iff, hasPart_iff, isTimeOfDay, Option.isSome_iff_exists]
  constructor
  · rintro ⟨parts, h⟩
    unfold timeOfDay? at h
    obtain ⟨hour, hhour, h⟩ := Option.bind_eq_some_iff.mp h
    obtain ⟨minute, hminute, h⟩ := Option.bind_eq_some_iff.mp h
    obtain ⟨second, hsecond, h⟩ := Option.bind_eq_some_iff.mp h
    split at h
    · next hranges =>
      simp only [RowFilter.isTimeOfDay, Bool.and_eq_true, decide_eq_true_eq] at hranges
      exact ⟨⟨hour, hranges.1.1, hhour⟩, ⟨minute, hranges.1.2, hminute⟩,
        second, hranges.2, hsecond⟩
    · cases h
  · rintro ⟨⟨hour, hhour, h⟩, ⟨minute, hminute, h'⟩, second, hsecond, h''⟩
    refine ⟨(hour, minute, second), ?_⟩
    have hranges : RowFilter.isTimeOfDay hour minute second = true := by
      simp [RowFilter.isTimeOfDay, hhour, hminute, hsecond]
    unfold timeOfDay?
    dsimp only
    rw [h, h', h'']
    simp [hranges]

theorem hasType_time_iff {v : Value} : v.HasType .time ↔ v.isTimeOfDay = true := by
  rw [isTimeOfDay_iff]
  constructor
  · intro h
    cases h with
    | time hhour hminute hsecond => exact ⟨hhour, hminute, hsecond⟩
  · rintro ⟨hhour, hminute, hsecond⟩
    exact .time hhour hminute hsecond

end Value

namespace Comparison

/-- What a comparison compares with, as it is written down beside the label. A check for null
compares with null. -/
def operand : Comparison → Value
  | .compare _ operand | .modulo operand => operand
  | .like pattern => .text pattern
  | .among operands => .list operands
  | .isNull | .notNull => .null

/-- A comparison that suits a field of the type. -/
def WellTyped (type : ValueType) (c : Comparison) : Prop :=
  match c with
  | .compare _ operand => operand.Suits type
  | .among operands => ∀ operand ∈ operands, operand.Suits type
  | .like pattern => ∃ s, pattern = "%" ++ s ++ "%"
  | .modulo operand => type = .scalar .int ∧ ∃ divisor remainder,
      operand = .ofModulus divisor remainder ∧ divisor.isSafeInteger = true ∧
        remainder.isSafeInteger = true ∧ divisor.isZero = false
  | .isNull | .notNull => c.operand = .null

end Comparison
end RowFilter
